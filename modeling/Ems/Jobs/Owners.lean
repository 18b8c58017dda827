import Ems.Jobs.Calls
import Ems.Server.Numbers

/-!
# Who owns which seat

`ems_reserve` of the first part takes its number first, marks the seats while it checks
them and takes everything back when it fails, so while it runs the event is no record of
anything. What is: the event as it was before the call (`base`), and how far the call has
got (`Unfinished`). `base` keeps the ledger of the successful reservations (`Booked`);
the end of the first loop grants it a claim, and the end of the second one finds it
unchanged. One thread at a time is in there, the one that holds `event_Lock` for writing.

The number is never 0 by the time it matters. A seat was found free before the second
one is looked at, so the ledger had room, and a seat named twice is refused by its own
mark.
-/

namespace Ems.Jobs.Calls

open Conc Base Server

/-! ## One event -/

/-- The event keeps the ledger of the reservations `hist`. -/
def Booked (hist : List (List Seat)) (event : Jobs.Event) : Prop :=
  ∃ l : Ledger (Finset.range (capacity event.toServer)),
    l.claims = hist.map (cells event.toServer) ∧ Keeps event.toServer l [] ∧
    ∀ seats ∈ hist, ∀ p ∈ seats, Inside event.toServer p

section Event

variable {hist : List (List Seat)} {base event : Jobs.Event} {q : Request} {r : UInt32} {i : Nat}

/-- There is a cell for every seat. -/
theorem Booked.size (h : Booked hist base) : base.data.length = capacity base.toServer := by
  obtain ⟨l, -, hkeep, -⟩ := h
  exact hkeep.size

/-- While a seat is free there is a number left. -/
theorem Booked.next_number (h : Booked hist base) (hcap : capacity base.toServer < 2 ^ 32)
    (hin : Inside base.toServer (q.seat i)) (hfree : getSeat base (index base q i) = 0) :
    (base.reservations + 1).toNat = hist.length + 1 := by
  obtain ⟨l, hl, hkeep, -⟩ := h
  have hlen : l.claims.length = hist.length := by rw [hl, List.length_map]
  have hroom : index base q i < capacity base.toServer := by
    have := index_lt hkeep.size (by omega) hin
    rwa [← hkeep.size]
  have howner : l.owner (index base q i) = 0 := by
    rw [← hkeep.marked _ List.not_mem_nil]
    exact congrArg UInt32.toNat hfree
  have hlt := l.length_lt_of_free (Finset.mem_range.mpr hroom) howner
  rw [Finset.card_range] at hlt
  have hcount : base.reservations.toNat = hist.length := hlen ▸ hkeep.count
  rw [UInt32.toNat_add, hcount]
  exact Nat.mod_eq_of_lt (show hist.length + 1 < 2 ^ 32 by omega)

/-- A seat that passes the test gets a mark of its own. -/
theorem Booked.mark (h : Booked hist base) (hcap : capacity base.toServer < 2 ^ 32)
    (hm : Marks base event q (base.reservations + 1) 0 i) (hr : refused event q i = false) :
    Marks base (setSeat event (index event q i) (base.reservations + 1)) q
      (base.reservations + 1) 0 (i + 1) := by
  obtain ⟨hin, hfree⟩ := refused_eq_false.mp hr
  rw [hm.index_eq] at hfree
  refine hm.mark hr (index_lt h.size (by omega) ((hm.inside_iff _).mp hin)) fun j hj heq => ?_
  -- the seat would carry the mark of the `j`-th one
  have hmark := hm.marked j (Nat.zero_le _) hj
  rw [heq, hfree] at hmark
  have hnum := h.next_number hcap (hm.inside j hj) (hm.free j hj)
  rw [← hmark] at hnum
  cases hnum

/-- The cells of seats only depend on the number of columns. -/
theorem cells_eq {a b : Server.Event} (h : a.cols = b.cols) (seats : List Seat) :
    cells a seats = cells b seats := by
  unfold cells cell Server.seatIndex
  rw [h]

/-- All seats marked: a claim is granted. -/
theorem Booked.grant (h : Booked hist base) (hcap : capacity base.toServer < 2 ^ 32)
    (hm : Marks base event q (base.reservations + 1) 0 q.numSeats.toNat)
    (hres : event.reservations = base.reservations + 1) (hn : 1 ≤ q.numSeats.toNat) :
    Booked (hist ++ [q.seats]) event := by
  -- the first seat was free, so the counter has not come round
  have hnum := h.next_number hcap (hm.inside 0 hn) (hm.free 0 hn)
  obtain ⟨l, hl, hkeep, hins⟩ := h
  have hlen : l.claims.length = hist.length := by rw [hl, List.length_map]
  have hroom : cells base.toServer q.seats ⊆ Finset.range (capacity base.toServer) := by
    intro c hc
    obtain ⟨i, hi, rfl⟩ := Request.mem_cells.mp hc
    have hlt := hm.room i hi
    rw [show base.data.length = capacity base.toServer from hkeep.size] at hlt
    exact Finset.mem_range.mpr hlt
  have hfree : ∀ c ∈ cells base.toServer q.seats, l.owner c = 0 := by
    intro c hc
    obtain ⟨i, hi, rfl⟩ := Request.mem_cells.mp hc
    rw [← hkeep.marked _ List.not_mem_nil]
    exact congrArg UInt32.toNat (hm.free i hi)
  have hne : (cells base.toServer q.seats).Nonempty := ⟨_, Request.mem_cells.mpr ⟨0, hn, rfl⟩⟩
  have hsame : capacity event.toServer = capacity base.toServer := by
    show event.rows.toNat * event.cols.toNat = base.rows.toNat * base.cols.toNat
    rw [hm.rows, hm.cols]
  have hcells : cells event.toServer = cells base.toServer := funext (cells_eq hm.cols)
  unfold Booked
  rw [hsame]
  refine ⟨l.grant _ hne hroom hfree, ?_, ?_, ?_⟩
  · show l.claims ++ [cells base.toServer q.seats] = _
    rw [hcells, hl, List.map_append, List.map_singleton]
  · constructor
    · show event.data.length = _
      rw [hm.length]
      exact hkeep.size
    · show event.reservations.toNat = (l.claims ++ [_]).length
      rw [hres, hnum, List.length_append, hlen]
      rfl
    · intro c _
      rw [Ledger.owner_grant]
      show (getSeat event c).toNat = _
      split
      next hc =>
        obtain ⟨i, hi, rfl⟩ := Request.mem_cells.mp hc
        rw [show getSeat event (q.index base.toServer i) = _ from hm.marked i (Nat.zero_le _) hi,
          hnum, hlen]
      next hc =>
        rw [hm.others c fun i _ hi heq => hc (Request.mem_cells.mpr ⟨i, hi, heq⟩)]
        exact hkeep.marked c List.not_mem_nil
    · simp
  · intro seats hseats p hp
    rw [hm.inside_iff]
    rcases List.mem_append.mp hseats with hold | hnew
    · exact hins seats hold p hp
    · rw [List.mem_singleton.mp hnew, Request.mem_seats] at hp
      obtain ⟨i, hi, rfl⟩ := hp
      exact hm.inside i hi

/-- A new event has no reservations. -/
theorem booked_new (hcap : capacity event.toServer < 2 ^ 32) (hres : event.reservations = 0)
    (hdata : event.data = zeroedCells event.rows event.cols) : Booked [] event := by
  have hcells : event.data = List.replicate (capacity event.toServer) 0 := by
    rw [hdata]
    exact zeroedCells_eq (show capacity event.toServer * 4 < 2 ^ 64 by omega)
  exact ⟨Ledger.blank _, rfl, keeps_blank hres hcells, by simp⟩

/-- What is marked stays marked with the same number while more is booked. -/
theorem Booked.frozen {hist' : List (List Seat)} {event' : Jobs.Event} (h : Booked hist event)
    (h' : Booked hist' event') (hmore : hist <+: hist') (hrows : event'.rows = event.rows)
    (hcols : event'.cols = event.cols) {c : Nat} {v : UInt32} (hv : event.data[c]? = some v)
    (hne : v ≠ 0) : event'.data[c]? = some v := by
  obtain ⟨l, hl, hkeep, -⟩ := h
  obtain ⟨l', hl', hkeep', -⟩ := h'
  have hcells : cells event'.toServer = cells event.toServer := funext (cells_eq hcols)
  have hclaims : l.claims <+: l'.claims := by
    rw [hl, hl', hcells]
    exact hmore.map _
  obtain ⟨hlt, hget⟩ := List.getElem?_eq_some_iff.mp hv
  have hlt' : c < event'.data.length := by
    rw [show event'.data.length = event'.rows.toNat * event'.cols.toNat from hkeep'.size, hrows,
      hcols]
    exact Nat.lt_of_lt_of_eq hlt hkeep.size
  have howner : l.owner c = v.toNat := by
    rw [← hkeep.marked c List.not_mem_nil, value_getElem hlt]
    exact congrArg UInt32.toNat hget
  have hsame := Ledger.owner_of_more hclaims (show l.owner c ≠ 0 by
    rw [howner]
    exact fun h0 => hne (UInt32.toNat_inj.mp h0))
  rw [← hkeep'.marked c List.not_mem_nil, value_getElem hlt', howner] at hsame
  rw [List.getElem?_eq_getElem hlt']
  exact congrArg some (UInt32.toNat_inj.mp hsame)

end Event

/-! ## event_Lock -/

/-- The place is inside a read section of `event_Lock`. -/
def Pc.reading : Pc → Bool
  | .create (.lookup _ _ _) => true
  | .create (.existsUnlist _) => true
  | .create (.existsUnevent _) => true
  | .create (.absentUnevent _ _ _) => true
  | .lookup _ => true
  | .unevent _ _ => true
  | _ => false

/-- The place is inside the write section of `event_Lock`. -/
def Pc.writing : Pc → Bool
  | .bump _ _ => true
  | .writeSeats _ _ _ => true
  | .seatCheck _ _ _ _ => true
  | .seatMark _ _ _ _ => true
  | .undo _ _ _ => true
  | .seatClear _ _ _ _ => true
  | .failUnseat _ => true
  | .failUnevent _ => true
  | .commitUnevent _ => true
  | _ => false

/-- `event_Lock` is held by the threads inside its sections. -/
def EventInv (s : State) : Prop := s.eventLock.Follows Pc.reading Pc.writing s.pc

/-- The lock follows the threads, one step. -/
theorem step_eventInv {s s' : State} {a : Act} (hs : Step s a s') (hi : EventInv s) :
    EventInv s' := by
  cases hs
  case create t a pc v h hv =>
    rw [← creates_pc h] at h
    cases hv
    case readEvent id rows cols l h' hl =>
      exact hi.rdlock hl (by rw [Jobs.goto_self]; rfl) (by rw [Jobs.goto_self]; rfl)
    case existsUnevent id h' =>
      exact hi.unlock (Or.inl (by rw [h, h']; rfl)) (by rw [Jobs.goto_self]; rfl)
        (by rw [Jobs.goto_self]; rfl)
    case absentUnevent id rows cols h' =>
      exact hi.unlock (Or.inl (by rw [h, h']; rfl)) (by rw [Jobs.goto_self]; rfl)
        (by rw [Jobs.goto_self]; rfl)
    -- the other places of `ems_create` leave `event_Lock` alone
    all_goals
      rw [Jobs.goto_self]
      exact hi.goto (by simp only [*, Pc.reading]) (by simp only [*, Pc.writing])
  case readEvent t a q l h hl => exact hi.rdlock hl rfl rfl
  case unevent t a q event h => exact hi.unlock (Or.inl (by rw [h]; rfl)) rfl rfl
  case writeEvent t a q e l h hl => exact hi.wrlock hl rfl rfl
  case failUnevent t a e h => exact hi.unlock (Or.inr (by rw [h]; rfl)) rfl rfl
  case commitUnevent t a e h => exact hi.unlock (Or.inr (by rw [h]; rfl)) rfl rfl
  case call t op h => cases op <;> exact hi.goto (by rw [h]; rfl) (by rw [h]; rfl)
  all_goals exact hi.goto (by simp [*, Pc.reading]) (by simp [*, Pc.writing])

/-- In every run. -/
theorem run_eventInv {tr : List Act} {s : State} (h : machine.run tr = some s) : EventInv s :=
  machine.run_invariant (I := fun _ s => EventInv s) (RwLock.follows_free rfl rfl)
    (fun _ _ _ _ _ hi hstep => step_eventInv (step_cases hstep) hi) tr s h

/-! ## What threads carry -/

/-- A request as `parse_reserve` delivers it: between 1 and
`MAX_RESERVATION_SIZE - 1` seats, repeats allowed. -/
def Act.Sane : Act → Prop
  | .call _ (.reserve q) => 1 ≤ q.numSeats.toNat ∧ q.numSeats.toNat ≤ 255
  | _ => True

/-- A request under way names a seat, an event not yet in the list is a blank one. -/
def Pc.Sound : Pc → Prop
  | .create (.writeList event) => event.reservations = 0 ∧
      event.data = zeroedCells event.rows event.cols
  | .create (.append event) => event.reservations = 0 ∧
      event.data = zeroedCells event.rows event.cols
  | .readList q => 1 ≤ q.numSeats.toNat
  | .readEvent q => 1 ≤ q.numSeats.toNat
  | .lookup q => 1 ≤ q.numSeats.toNat
  | .unevent q _ => 1 ≤ q.numSeats.toNat
  | .unlist q _ => 1 ≤ q.numSeats.toNat
  | .writeEvent q _ => 1 ≤ q.numSeats.toNat
  | .bump q _ => 1 ≤ q.numSeats.toNat
  | .writeSeats q _ _ => 1 ≤ q.numSeats.toNat
  | .seatCheck q _ _ _ => 1 ≤ q.numSeats.toNat
  | .seatMark q _ _ _ => 1 ≤ q.numSeats.toNat
  | _ => True

def SoundInv (s : State) : Prop := ∀ t, (s.pc t).Sound

/-- A thread moves on with its call. -/
theorem soundInv_goto {s s' : State} {t : Tid} {pc : Pc} (hi : SoundInv s)
    (hp : s'.pc = Function.update s.pc t pc) (hpc : (s.pc t).Sound → pc.Sound) : SoundInv s' := by
  intro u
  rw [hp]
  by_cases hu : u = t
  · subst hu
    rw [Function.update_self]
    exact hpc (hi u)
  · rw [Function.update_of_ne hu]
    exact hi u

/-- The requests stay those `process_commands` lets through. -/
theorem step_soundInv {s s' : State} {a : Act} (hs : Step s a s') (ha : a.Sane)
    (hi : SoundInv s) : SoundInv s' := by
  cases hs
  case call t op h =>
    refine soundInv_goto hi rfl fun _ => ?_
    cases op with
    | create eventId numRows numCols => trivial
    | reserve q => exact ha.1
  case create t a pc v h hv =>
    refine soundInv_goto hi rfl fun hold => ?_
    rw [← creates_pc h] at h
    rw [h] at hold
    cases hv
    -- a new event begins with no reservation and with cells of 0
    case build id rows cols event h' hb =>
      rw [Jobs.goto_self]
      unfold buildEvent at hb
      split at hb
      next =>
        cases hb
        exact ⟨rfl, rfl⟩
      next => cases hb
    case writeList event l h' hl =>
      rw [h'] at hold
      rw [Jobs.goto_self]
      exact hold
    all_goals
      rw [Jobs.goto_self]
      trivial
  all_goals
    refine soundInv_goto hi rfl fun hold => ?_
    first
    | trivial
    | simpa [*, Pc.Sound] using hold

/-! ## The books -/

/-- The event a thread has changed and not yet settled. -/
def Pc.target : Pc → Option Nat
  | .writeSeats _ e _ => some e
  | .seatCheck _ e _ _ => some e
  | .seatMark _ e _ _ => some e
  | .undo _ e _ => some e
  | .seatClear _ e _ _ => some e
  | _ => none

/-- How far a call has changed the event `base` it found into `event`. -/
def Unfinished (base event : Jobs.Event) : Pc → Prop
  | .writeSeats q _ r => r = base.reservations + 1 ∧ event.reservations = r ∧
      Marks base event q r 0 0
  | .seatCheck q _ r i => r = base.reservations + 1 ∧ event.reservations = r ∧
      i ≤ q.numSeats.toNat ∧ Marks base event q r 0 i
  | .seatMark q _ r i => r = base.reservations + 1 ∧ event.reservations = r ∧
      i < q.numSeats.toNat ∧ refused event q i = false ∧ Marks base event q r 0 i
  | .undo q _ i => event.reservations = base.reservations + 1 ∧
      Marks base event q (base.reservations + 1) 0 i
  | .seatClear q _ i j => event.reservations = base.reservations ∧ j ≤ i ∧
      Marks base event q (base.reservations + 1) j i
  | _ => event = base

/-- What a step shows of the event at `e`: the first loop of `ems_reserve` has gone past
the last seat. -/
def booked (e : Nat) (s : State) : Act → List (List Seat)
  | .step t _ =>
    match s.pc t with
    | .seatCheck q e' _ i => if e' = e ∧ q.numSeats.toNat ≤ i then [q.seats] else []
    | _ => []
  | _ => []

/-- The seats of the successful reservations of the event at `e`, in the order in which
they held `event_Lock`. -/
def bookings (e : Nat) (tr : List Act) : List (List Seat) := machine.log (booked e) tr

/-- The event at `e` keeps its ledger, up to what one call has not finished. -/
structure Books (e : Nat) (hist : List (List Seat)) (s : State) : Prop where
  before : s.list.length ≤ e → hist = [] ∧ ∀ t, (s.pc t).target ≠ some e
  after : ∀ event, s.list[e]? = some event → capacity event.toServer < 2 ^ 32 →
    ∃ base, Booked hist base ∧ capacity base.toServer = capacity event.toServer ∧
      (∀ t, (s.pc t).target = some e → Unfinished base event (s.pc t)) ∧
      ((∀ t, (s.pc t).target ≠ some e) → event = base)

/-- Who changes an event has the lock of the events. -/
theorem Pc.writing_of_target {pc : Pc} {e : Nat} (h : pc.target = some e) : pc.writing = true := by
  cases pc <;> first | rfl | cases h

/-- Who changes the event has not moved. -/
theorem target_goto {s s' : State} {t u : Tid} {pc : Pc} {e : Nat}
    (hp : s'.pc = Function.update s.pc t pc) (hpc : pc.target ≠ some e)
    (h : (s'.pc u).target = some e) : u ≠ t ∧ s'.pc u = s.pc u := by
  rw [hp] at h ⊢
  have hu : u ≠ t := by
    rintro rfl
    rw [Function.update_self] at h
    exact hpc h
  exact ⟨hu, Function.update_of_ne hu ..⟩

/-- Steps that leave the event at `e` and its books alone. -/
theorem books_other {s s' : State} {e : Nat} {hist : List (List Seat)} {t : Tid} {pc : Pc}
    (hb : Books e hist s) (hp : s'.pc = Function.update s.pc t pc)
    (hold : (s.pc t).target ≠ some e) (hpc : pc.target ≠ some e)
    (hlen : s.list.length ≤ s'.list.length) (hget : s'.list[e]? = s.list[e]?) :
    Books e hist s' := by
  constructor
  · intro hle
    obtain ⟨hh, hno⟩ := hb.before (Nat.le_trans hlen hle)
    refine ⟨hh, fun u hu => ?_⟩
    obtain ⟨-, hsame⟩ := target_goto hp hpc hu
    exact hno u (hsame ▸ hu)
  · intro event he hcap
    obtain ⟨base, hbase, hsize, htarget, hnone⟩ := hb.after event (hget ▸ he) hcap
    refine ⟨base, hbase, hsize, fun u hu => ?_, fun hno => hnone fun u hu => ?_⟩
    · obtain ⟨-, hsame⟩ := target_goto hp hpc hu
      rw [hsame] at hu ⊢
      exact htarget u hu
    · have hut : u ≠ t := by
        rintro rfl
        exact hold hu
      refine hno u ?_
      rw [hp, Function.update_of_ne hut]
      exact hu

/-- Nobody changes the event. -/
theorem unfinished_of_none {base event : Jobs.Event} {pc : Pc} (h : pc.target = none) :
    Unfinished base event pc ↔ event = base := by
  cases pc <;> first | exact Iff.rfl | cases h

/-- The thread that holds `event_Lock` moves on with the event at `e'`, and books `new`. -/
theorem books_move {s s' : State} {e e' : Nat} {hist log : List (List Seat)}
    (new : List (List Seat)) {t : Tid} {pc pc' : Pc} {event event' : Jobs.Event}
    (hb : Books e hist s) (hi : EventInv s) (hlog : log = if e' = e then new else [])
    (hpc : s.pc t = pc) (hw : pc.writing = true) (hp : s'.pc = Function.update s.pc t pc')
    (ht : pc.target = none ∨ pc.target = some e') (ht' : pc'.target = none ∨ pc'.target = some e')
    (he : s.list[e']? = some event) (hl : s'.list = s.list.set e' event')
    (hcap : capacity event'.toServer = capacity event.toServer)
    (hmove : ∀ base, capacity base.toServer < 2 ^ 32 → Booked hist base →
      Unfinished base event pc → ∃ base', Booked (hist ++ new) base' ∧
        capacity base'.toServer = capacity base.toServer ∧ Unfinished base' event' pc') :
    Books e (hist ++ log) s' := by
  rw [hlog]
  have hlen : s'.list.length = s.list.length := by rw [hl, List.length_set]
  by_cases hee : e' = e
  · subst hee
    rw [if_pos rfl]
    obtain ⟨hlt, -⟩ := List.getElem?_eq_some_iff.mp he
    have hget : s'.list[e']? = some event' := by
      rw [hl]
      exact List.getElem?_set_self hlt
    -- a changed event is somebody's write section, and that section is taken by `t`
    have halone : ∀ u, u ≠ t → (s.pc u).target ≠ some e' := by
      intro u hu htarget
      have hno := (hi.alone (by rw [hpc]; exact hw) hu).2
      rw [Pc.writing_of_target htarget] at hno
      cases hno
    refine ⟨fun hle => absurd hlt (by omega), fun event'' he'' hcap'' => ?_⟩
    rw [hget] at he''
    cases he''
    obtain ⟨base, hbase, hsize, htarget, hnone⟩ := hb.after event he (hcap ▸ hcap'')
    -- before its first change the event is still its own record
    have hold : Unfinished base event pc := by
      rcases ht with hno | hyes
      · refine (unfinished_of_none hno).mpr (hnone fun u hu => ?_)
        by_cases hut : u = t
        · subst hut
          rw [hpc, hno] at hu
          cases hu
        · exact halone u hut hu
      · exact hpc ▸ htarget t (hpc ▸ hyes)
    obtain ⟨base', hbase', hsize', hnew⟩ := hmove base (by omega) hbase hold
    refine ⟨base', hbase', by omega, fun u hu => ?_, fun hno => ?_⟩
    · by_cases hut : u = t
      · subst hut
        rwa [hp, Function.update_self]
      · rw [hp, Function.update_of_ne hut] at hu
        exact absurd hu (halone u hut)
    · have hother := hno t
      rw [hp, Function.update_self] at hother
      exact (unfinished_of_none (ht'.resolve_right hother)).mp hnew
  · rw [if_neg hee, List.append_nil]
    -- another event; the books of this one do not notice
    have hne : ∀ {pc : Pc}, (pc.target = none ∨ pc.target = some e') → pc.target ≠ some e := by
      rintro pc (h | h) <;> rw [h]
      · exact nofun
      · exact fun heq => hee (Option.some.inj heq)
    refine books_other hb hp (hpc ▸ hne ht) (hne ht') (Nat.le_of_eq hlen.symm) ?_
    rw [hl]
    exact List.getElem?_set_ne hee

/-- A new event has blank books. -/
theorem books_append {s s' : State} {e : Nat} {hist : List (List Seat)} {t : Tid} {pc : Pc}
    {event : Jobs.Event} (hb : Books e hist s) (hp : s'.pc = Function.update s.pc t pc)
    (hold : (s.pc t).target ≠ some e) (hpc : pc.target ≠ some e)
    (hl : s'.list = s.list ++ [event]) (hres : event.reservations = 0)
    (hdata : event.data = zeroedCells event.rows event.cols) : Books e hist s' := by
  have hlen : s'.list.length = s.list.length + 1 := by
    rw [hl, List.length_append, List.length_singleton]
  by_cases he : e = s.list.length
  · obtain ⟨hh, hno⟩ := hb.before (Nat.le_of_eq he.symm)
    have hget : s'.list[e]? = some event := by
      rw [hl, he]
      exact List.getElem?_concat_length
    have hno' : ∀ u, (s'.pc u).target ≠ some e := by
      intro u hu
      obtain ⟨-, hsame⟩ := target_goto hp hpc hu
      exact hno u (hsame ▸ hu)
    refine ⟨fun _ => ⟨hh, hno'⟩, fun event' he' hcap => ?_⟩
    rw [hget] at he'
    cases he'
    refine ⟨event, ?_, rfl, fun u hu => absurd hu (hno' u), fun _ => rfl⟩
    rw [hh]
    exact booked_new hcap hres hdata
  · refine books_other hb hp hold hpc (by omega) ?_
    rcases Nat.lt_or_gt_of_ne he with hlt | hgt
    · rw [hl]
      exact List.getElem?_append_left hlt
    · rw [List.getElem?_eq_none (by omega), List.getElem?_eq_none (by omega)]

/-- A step keeps the account of the seats. -/
theorem step_books {s s' : State} {a : Act} {e : Nat} {hist : List (List Seat)}
    (hs : Step s a s') (hi : EventInv s) (hsound : SoundInv s) (hb : Books e hist s) :
    Books e (hist ++ booked e s a) s' := by
  cases hs
  case create t a pc v h hv =>
    rw [show booked e s (.step t a) = [] by simp only [booked, h], List.append_nil]
    rw [← creates_pc h] at h
    have hcarry := hsound t
    rw [h] at hcarry
    cases hv
    case append event h' hn =>
      rw [h'] at hcarry
      exact books_append hb rfl (by simp [h, Pc.target]) (by simp [Pc.target]) rfl hcarry.1 hcarry.2
    all_goals
      exact books_other hb rfl (by simp [h, Pc.target]) (by simp [Pc.target]) (Nat.le_refl _) rfl
  -- the number is taken before a seat is looked at
  case bump t a q e' event h he =>
    refine books_move [] hb hi (by simp [booked, h]) h rfl rfl (Or.inl rfl) (Or.inr rfl) he rfl
      rfl ?_
    rintro base - hbase rfl
    rw [List.append_nil]
    exact ⟨event, hbase, rfl, rfl, rfl, Marks.start q _ rfl rfl rfl rfl⟩
  -- from here on the seats are this thread's as well; nothing has been marked yet
  case writeSeats t a q e' r l h hl =>
    by_cases hee : e' = e
    · subst hee
      have hlt : e' < s.list.length := by
        by_contra hge
        exact (hb.before (Nat.le_of_not_lt hge)).2 t (by rw [h]; rfl)
      have he := List.getElem?_eq_getElem hlt
      refine books_move [] hb hi (by simp [booked, h]) h rfl rfl (Or.inr rfl) (Or.inr rfl) he
        (set_same he).symm rfl ?_
      rintro base - hbase ⟨hr, hres, hm⟩
      rw [List.append_nil]
      exact ⟨base, hbase, rfl, hr, hres, Nat.zero_le _, hm⟩
    · rw [show booked e s (.step t a) = [] by simp only [booked, h], List.append_nil]
      exact books_other hb rfl (by simp [h, Pc.target, hee]) (by simp [Pc.target, hee])
        (Nat.le_refl _) rfl
  case refuse t a q e' r i event h he hlt hr =>
    refine books_move [] hb hi (by simp [booked, h]; omega) h rfl rfl (Or.inr rfl) (Or.inr rfl) he
      (set_same he).symm rfl ?_
    rintro base - hbase ⟨rfl, hres, -, hm⟩
    rw [List.append_nil]
    exact ⟨base, hbase, rfl, hres, hm⟩
  case pass t a q e' r i event h he hlt hr =>
    refine books_move [] hb hi (by simp [booked, h]; omega) h rfl rfl (Or.inr rfl) (Or.inr rfl) he
      (set_same he).symm rfl ?_
    rintro base - hbase ⟨hr', hres, -, hm⟩
    rw [List.append_nil]
    exact ⟨base, hbase, rfl, hr', hres, hlt, hr, hm⟩
  -- the end of the first loop: the event becomes the new base
  case commit t a q e' r i event h he hle =>
    have hone := hsound t
    rw [h] at hone
    refine books_move [q.seats] hb hi (by simp [booked, h, hle]) h rfl rfl (Or.inr rfl)
      (Or.inl rfl) he (set_same he).symm rfl ?_
    rintro base hcap hbase ⟨rfl, hres, hge, hm⟩
    obtain rfl := Nat.le_antisymm hge hle
    refine ⟨event, hbase.grant hcap hm hres hone, ?_, rfl⟩
    show event.rows.toNat * event.cols.toNat = base.rows.toNat * base.cols.toNat
    rw [hm.rows, hm.cols]
  case seatMark t a q e' r i event h he =>
    refine books_move [] hb hi (by simp [booked, h]) h rfl rfl (Or.inr rfl) (Or.inr rfl) he rfl
      rfl ?_
    rintro base hcap hbase ⟨rfl, hres, hlt, hr, hm⟩
    rw [List.append_nil]
    exact ⟨base, hbase, rfl, rfl, hres, hlt, hbase.mark hcap hm hr⟩
  case undo t a q e' i event h he =>
    refine books_move [] hb hi (by simp [booked, h]) h rfl rfl (Or.inr rfl) (Or.inr rfl) he rfl
      rfl ?_
    rintro base - hbase ⟨hres, hm⟩
    rw [List.append_nil]
    refine ⟨base, hbase, rfl, ?_, Nat.zero_le i, hm.undo⟩
    show event.reservations - 1 = base.reservations
    rw [hres]
    exact UInt32.add_sub_cancel _ _
  case seatClear t a q e' i j event h he hlt =>
    refine books_move [] hb hi (by simp [booked, h]) h rfl rfl (Or.inr rfl) (Or.inr rfl) he rfl
      rfl ?_
    rintro base - hbase ⟨hres, -, hm⟩
    rw [List.append_nil]
    exact ⟨base, hbase, rfl, hres, hlt, hm.clear hlt⟩
  -- the end of the second loop: the event is the old base again
  case cleared t a q e' i j event h he hle =>
    refine books_move [] hb hi (by simp [booked, h]) h rfl rfl (Or.inr rfl) (Or.inl rfl) he
      (set_same he).symm rfl ?_
    rintro base - hbase ⟨hres, hge, hm⟩
    obtain rfl := Nat.le_antisymm hge hle
    rw [List.append_nil]
    exact ⟨base, hbase, rfl, hm.eq_base hres⟩
  case call t op h =>
    rw [show booked e s (.call t op) = [] from rfl, List.append_nil]
    refine books_other hb rfl (by simp [h, Pc.target]) ?_ (Nat.le_refl _) rfl
    cases op <;> simp [Op.entry, Pc.target]
  -- the lookup, the locks and the returns
  all_goals
    rw [show booked e s _ = [] by simp [*, booked], List.append_nil]
    exact books_other hb rfl (by simp [*, Pc.target]) (by simp [Pc.target]) (Nat.le_refl _) rfl

/-- In every run. -/
theorem run_books {tr : List Act} {s : State} (hsane : ∀ a ∈ tr, a.Sane)
    (h : machine.run tr = some s) (e : Nat) : Books e (bookings e tr) s := by
  refine machine.run_invariant_of_meets (C := fun _ a => a.Sane)
    (I := fun tr s => SoundInv s ∧ Books e (bookings e tr) s) ?_ ?_ tr s
    (machine.meets_of_forall hsane) h |>.2
  · refine ⟨fun _ => trivial, fun _ => ⟨rfl, fun _ => nofun⟩, fun event he => ?_⟩
    cases he
  · intro tr s a s' hrun ha hi hstep
    refine ⟨step_soundInv (step_cases hstep) ha hi.1, ?_⟩
    unfold bookings
    rw [machine.log_snoc (booked e) hrun hstep]
    exact step_books (step_cases hstep) (run_eventInv hrun) hi.1 hi.2

/-- While nobody is inside `event_Lock` for writing the event is its own record. -/
theorem Books.settled {s : State} {e : Nat} {hist : List (List Seat)} {event : Jobs.Event}
    (hb : Books e hist s) (hi : EventInv s) (hfree : s.eventLock.writer = none)
    (he : s.list[e]? = some event) (hcap : capacity event.toServer < 2 ^ 32) :
    Booked hist event := by
  obtain ⟨base, hbase, -, -, hnone⟩ := hb.after event he hcap
  rw [hnone fun t ht => ?_]
  · exact hbase
  · have hw := (hi.writer t).mpr (Pc.writing_of_target ht)
    rw [hfree] at hw
    cases hw

/-! ## From one state to a later one -/

/-- The event at `e` stays where it is, with its dimensions. -/
def Stays (e : Nat) (s s' : State) : Prop :=
  ∀ event, s.list[e]? = some event →
    ∃ event', s'.list[e]? = some event' ∧ event'.rows = event.rows ∧ event'.cols = event.cols

/-- The list has not changed. -/
theorem stays_same {s s' : State} {e : Nat} (h : s'.list = s.list) : Stays e s s' :=
  fun event he => ⟨event, by rw [h]; exact he, rfl, rfl⟩

/-- An event has changed, and not its dimensions. -/
theorem stays_set {s s' : State} {e e' : Nat} {event event' : Jobs.Event}
    (he : s.list[e']? = some event) (hl : s'.list = s.list.set e' event')
    (hrows : event'.rows = event.rows) (hcols : event'.cols = event.cols) : Stays e s s' := by
  intro event'' he''
  by_cases hee : e' = e
  · subst hee
    rw [he] at he''
    cases he''
    obtain ⟨hlt, -⟩ := List.getElem?_eq_some_iff.mp he
    exact ⟨event', by rw [hl]; exact List.getElem?_set_self hlt, hrows, hcols⟩
  · exact ⟨event'', by rw [hl, List.getElem?_set_ne hee]; exact he'', rfl, rfl⟩

/-- The dimensions of an event stay, one step. -/
theorem step_stays {s s' : State} {a : Act} {e : Nat} (hs : Step s a s') : Stays e s s' := by
  cases hs
  case create t a pc v h hv =>
    cases hv
    case append event h' hn =>
      intro event' he
      obtain ⟨hlt, -⟩ := List.getElem?_eq_some_iff.mp he
      exact ⟨event', (List.getElem?_append_left hlt).trans he, rfl, rfl⟩
    all_goals exact stays_same rfl
  case bump h he => exact stays_set he rfl rfl rfl
  case seatMark h he => exact stays_set he rfl rfl rfl
  case undo h he => exact stays_set he rfl rfl rfl
  case seatClear h he hj => exact stays_set he rfl rfl rfl
  all_goals exact stays_same rfl

/-- And from any state on. -/
theorem runFrom_stays {tr : List Act} {s s' : State} (h : machine.runFrom s tr = some s')
    (e : Nat) : Stays e s s' := by
  refine machine.runFrom_rel (I := fun _ => True) (P := fun _ => True) (R := Stays e)
    (fun _ => stays_same rfl) ?_ (fun _ _ _ _ _ _ => trivial)
    (fun _ _ _ _ _ hstep => step_stays (step_cases hstep)) tr s s' (fun _ _ => trivial) trivial h
  intro s1 s2 s3 h1 h2 event he
  obtain ⟨event', he', hrows, hcols⟩ := h1 event he
  obtain ⟨event'', he'', hrows', hcols'⟩ := h2 event' he'
  exact ⟨event'', he'', hrows'.trans hrows, hcols'.trans hcols⟩

/-- **Who owns which seat.** In every run of requests as `parse_reserve` delivers them,
for every event with fewer than 2^32 seats and in every state in which nobody holds
`event_Lock` for writing: the numbers on the matrix are those from 1 to `reservations`,
there is one for each successful reservation, the seats that carry `k` are those of the
`k`-th one, and a marked seat is marked the same in every later such state. -/
theorem seats_owned {tr : List Act} {s : State} (hsane : ∀ a ∈ tr, a.Sane)
    (hrun : machine.run tr = some s) (hfree : s.eventLock.writer = none) {e : Nat}
    {event : Jobs.Event} (he : s.list[e]? = some event)
    (hcap : event.rows.toNat * event.cols.toNat < 2 ^ 32) :
    event.toServer.numbers = {k | 1 ≤ k ∧ k ≤ event.reservations.toNat} ∧
    event.reservations.toNat = (bookings e tr).length ∧
    (∀ k, 1 ≤ k → {p : Seat | Inside event.toServer p ∧ event.toServer.seat p = k} =
      {p | p ∈ (bookings e tr).getD (k - 1) []}) ∧
    ∀ tr' s', (∀ a ∈ tr', a.Sane) → machine.runFrom s tr' = some s' →
      s'.eventLock.writer = none → ∃ event', s'.list[e]? = some event' ∧
        ∀ (c : Nat) (v : UInt32), event.data[c]? = some v → v ≠ 0 →
          event'.data[c]? = some v := by
  have hbooked : Booked (bookings e tr) event :=
    (run_books hsane hrun e).settled (run_eventInv hrun) hfree he hcap
  obtain ⟨l, hl, hkeep, hins⟩ := id hbooked
  have hcount : event.reservations.toNat = (bookings e tr).length := by
    rw [← List.length_map (cells event.toServer), ← hl]
    exact hkeep.count
  refine ⟨keeps_numbers hkeep, hcount,
    fun k hk => keeps_seats (Nat.lt_trans hcap (by decide)) hl hkeep hins hk, ?_⟩
  intro tr' s' hsane' hrun' hfree'
  obtain ⟨event', he', hrows, hcols⟩ := runFrom_stays hrun' e event he
  have hwhole : machine.run (tr ++ tr') = some s' := (machine.run_append hrun).trans hrun'
  have hsane'' : ∀ a ∈ tr ++ tr', a.Sane := List.forall_mem_append.mpr ⟨hsane, hsane'⟩
  have hbooked' : Booked (bookings e (tr ++ tr')) event' :=
    (run_books hsane'' hwhole e).settled (run_eventInv hwhole) hfree' he'
      (by show event'.rows.toNat * event'.cols.toNat < 2 ^ 32; rwa [hrows, hcols])
  have hmore : bookings e tr <+: bookings e (tr ++ tr') :=
    ⟨_, (machine.log_append (booked e) tr' hrun).symm⟩
  exact ⟨event', he', fun c v hv hne => hbooked.frozen hbooked' hmore hrows hcols hv hne⟩

/-- Thread 0 creates a 2 × 2 event; threads 1 and 2 look it up together, and thread 2 is
the first to get a seat of it that both want. -/
def contested : List Act :=
  let turn (t : Tid) : Act := .step t ⟨true, true, true⟩
  [.call 0 (.create 7 2 2)] ++ List.replicate 9 (turn 0) ++
    [.ret 0, .call 1 (.reserve ⟨7, 2, fun _ => 1, fun i => if i = 0 then 1 else 2⟩),
      .call 2 (.reserve ⟨7, 1, fun _ => 1, fun _ => 2⟩)] ++
    List.replicate 5 (turn 1) ++ List.replicate 13 (turn 2) ++ [.ret 2]

/-- Thread 1 marks its first seat, is refused the second, takes the mark back and then
reserves two others. -/
def retried : List Act :=
  let turn : Act := .step 1 ⟨true, true, true⟩
  List.replicate 11 turn ++
    [.ret 1, .call 1 (.reserve ⟨7, 2, fun i => if i = 0 then 1 else 2, fun _ => 1⟩)] ++
    List.replicate 15 turn ++ [.ret 1]

/-- Two reservations of one seat. -/
theorem seats_owned_contested :
    ∃ s event, machine.run contested = some s ∧ s.list[0]? = some event ∧
      event.toServer.numbers = {k | 1 ≤ k ∧ k ≤ 1} ∧
      {p : Seat | Inside event.toServer p ∧ event.toServer.seat p = 1} =
        {p | p ∈ [((1, 2) : Seat)]} ∧
      ∃ s' event', machine.runFrom s retried = some s' ∧ s'.list[0]? = some event' ∧
        event'.data[1]? = some 1 := by
  have hend : (machine.run contested).map (fun s => (s.list, s.eventLock.writer)) =
      some ([⟨7, 1, 2, 2, [0, 1, 0, 0]⟩], none) := by decide
  obtain ⟨s, hs, hlist⟩ := Option.map_eq_some_iff.mp hend
  have hlater : (machine.run (contested ++ retried)).map (fun s => (s.list, s.eventLock.writer)) =
      some ([⟨7, 2, 2, 2, [2, 1, 2, 0]⟩], none) := by decide
  obtain ⟨s', hs', hlist'⟩ := Option.map_eq_some_iff.mp hlater
  rw [machine.run_append hs] at hs'
  rw [Prod.mk.injEq] at hlist hlist'
  have he : s.list[0]? = some ⟨7, 1, 2, 2, [0, 1, 0, 0]⟩ := by rw [hlist.1]; rfl
  have hlog : bookings 0 contested = [[(1, 2)]] := by decide
  obtain ⟨hnumbers, -, hseats, hstays⟩ :=
    seats_owned (by simp [contested, Act.Sane]) hs hlist.2 he (by decide)
  obtain ⟨event', he', hmarked⟩ := hstays retried s' (by simp [retried, Act.Sane]) hs' hlist'.2
  rw [hlog] at hseats
  exact ⟨s, _, hs, he, hnumbers, hseats 1 (by decide), s', event', hs', he',
    hmarked 1 1 rfl (by decide)⟩

end Ems.Jobs.Calls
