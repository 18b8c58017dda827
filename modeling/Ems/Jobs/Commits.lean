import Ems.Jobs.Locking
import Ems.Jobs.Printed

/-!
# Reservations that are under way

From `++event->reservations` to the unlock of `event_Lock` the event of a reservation is
between two states: `base`, the one before the call, and what the call will make of it.
`books` follows one call through its steps on the event. At the unlock the event is `base`
again (`Settled`), or it is what `reserveSeats`, the whole call in one step, makes of
`base`.

A reservation that succeeds gives back `event_Lock` before `seat_Lock`, one that fails
after it.
-/

namespace Ems.Jobs.Programs

open Conc Conc.Program
open Server (Request)

/-! ## Taking the marks back -/

/-- The seats that have been marked so far and not been freed again, from the `lo`-th to
the `hi`-th: they were free in `base`, and all others are as they were. A seat may be
named twice, and the number of the reservation may be 0. -/
structure Touched (base event : Event) (q : Request) (lo hi : Nat) : Prop where
  shape : event.shape = base.shape
  length : event.data.length = base.data.length
  free : ∀ i < hi, getSeat base (index base q i) = 0
  room : ∀ i < hi, index base q i < base.data.length
  others : ∀ c, (∀ i, lo ≤ i → i < hi → index base q i ≠ c) → getSeat event c = getSeat base c

section Touched

variable {base event : Event} {q : Request} {lo hi i n : Nat} {r : UInt32}

/-- The index of a seat depends on the dimensions only. -/
theorem index_shape (h : event.shape = base.shape) (i : Nat) : index event q i = index base q i := by
  have hcols : event.cols = base.cols := congrArg (·.2.2) h
  unfold index seatIndex
  rw [hcols]

/-- Nothing is marked yet. -/
theorem Touched.start (q : Request) (base : Event) : Touched base (bumpReservations base) q 0 0 where
  shape := rfl
  length := rfl
  free _ h := absurd h (Nat.not_lt_zero _)
  room _ h := absurd h (Nat.not_lt_zero _)
  others _ _ := rfl

/-- The number that is given back marks no seat. -/
theorem Touched.undo (h : Touched base event q lo hi) :
    Touched base (undoReservations event) q lo hi :=
  ⟨h.shape, h.length, h.free, h.room, h.others⟩

/-- One more seat. -/
theorem Touched.mark (h : Touched base event q 0 hi) (hfree : getSeat event (index event q hi) = 0)
    (hroom : index event q hi < event.data.length) :
    Touched base (setSeat event (index event q hi) r) q 0 (hi + 1) := by
  rw [index_shape h.shape] at hfree hroom ⊢
  have hroom' := hroom
  rw [h.length] at hroom'
  have hbase : getSeat base (index base q hi) = 0 := by
    by_cases hnew : ∀ i, 0 ≤ i → i < hi → index base q i ≠ index base q hi
    · rw [← h.others _ hnew, hfree]
    · -- the same seat again
      simp only [not_forall, not_not] at hnew
      obtain ⟨i, -, hlt, heq⟩ := hnew
      rw [← heq]
      exact h.free i hlt
  constructor
  · exact h.shape
  · exact List.length_set.trans h.length
  · intro i hlt
    rcases Nat.lt_succ_iff_lt_or_eq.mp hlt with hold | rfl
    · exact h.free i hold
    · exact hbase
  · intro i hlt
    rcases Nat.lt_succ_iff_lt_or_eq.mp hlt with hold | rfl
    · exact h.room i hold
    · exact hroom'
  · intro c hc
    rw [getSeat_setSeat hroom, if_neg (Ne.symm (hc hi (Nat.zero_le _) (Nat.lt_succ_self _)))]
    exact h.others c fun i hlo hlt => hc i hlo (Nat.lt_succ_of_lt hlt)

/-- One seat less. -/
theorem Touched.clear (h : Touched base event q lo hi) (hlt : lo < hi) :
    Touched base (setSeat event (index event q lo) 0) q (lo + 1) hi := by
  rw [index_shape h.shape]
  refine ⟨h.shape, List.length_set.trans h.length, h.free, h.room, fun c hc => ?_⟩
  rw [getSeat_setSeat (by rw [h.length]; exact h.room lo hlt)]
  by_cases hlast : c = index base q lo
  · rw [if_pos hlast, hlast, h.free lo hlt]
  · rw [if_neg hlast]
    refine h.others c fun i hlo hi heq => ?_
    rcases Nat.eq_or_lt_of_le hlo with rfl | hgt
    · exact hlast heq.symm
    · exact hc i hgt hi heq

/-- Nothing is left. -/
theorem Touched.eq_base (h : Touched base event q hi hi)
    (hres : event.reservations = base.reservations) : event = base := by
  have hdata : event.data = base.data := by
    refine List.ext_getElem h.length fun c h1 h2 => ?_
    have hseat := h.others c fun i hle hlt => absurd hlt (Nat.not_lt.mpr hle)
    unfold getSeat at hseat
    rwa [List.getD_eq_getElem?_getD, List.getD_eq_getElem?_getD, List.getElem?_eq_getElem h1,
      List.getElem?_eq_getElem h2] at hseat
  have hshape := h.shape
  cases event
  cases base
  simp_all [Event.shape]

end Touched

/-! ## One reservation -/

/-- An event that is being reserved: its place, how it was before, how it is now. -/
structure Open where
  e : Nat
  base : Event
  now : Event

/-- One call: its locks, the event it has found, the reservation it is in the middle of,
and whether its effect is there for good. -/
structure Book where
  held : Held Lock
  found : Option (UInt32 × Nat)
  opened : Option Open
  committed : Bool

/-- The event `ems_create` makes. -/
def newEvent (eventId : UInt32) (numRows numCols : UInt64) : Event where
  id := eventId
  reservations := 0
  cols := numCols
  rows := numRows
  data := zeroedCells numRows numCols

/-- An unlock. With `event_Lock` a reservation is over, one way or the other. -/
@[simp] def booksUnlock (c : Op) (Q : Book → Prop) (m : Book) : Lock → Prop
  | .event =>
    (m.held .seat = some .write → ∃ o q, m.opened = some o ∧ c = .reserve q ∧
      m.found = some (q.eventId, o.e) ∧ reserveSeats o.base q = (o.now, 0) ∧ m.committed = false ∧
      Q { m with held := Function.update m.held .event none, opened := none, committed := true }) ∧
    (m.held .seat ≠ some .write → (∀ o, m.opened = some o → o.now = o.base) ∧
      Q { m with held := Function.update m.held .event none, opened := none })
  | .seat => (∀ o, m.opened = some o → o.now = o.base) ∧
      Q { m with held := Function.update m.held .seat none }
  | l => Q { m with held := Function.update m.held l none }

/-- Any other action. -/
@[simp] def booksAct (c : Op) (m : Book) : (e : Action) → (Answer e → Book → Prop) → Prop
  | .lookup eventId, Q => ∀ r : Option Nat, Q r { m with found := r.map (eventId, ·) }
  | .load e, Q => ∀ event : Event, (∀ o, m.opened = some o → o.e = e → event = o.now) → Q event m
  | .append event, Q => (∃ id rows cols, c = .create id rows cols ∧ event = newEvent id rows cols) ∧
      m.opened = none ∧ m.committed = false ∧ Q true { m with committed := true } ∧ Q false m
  | .bump e, Q => m.held .event = some .write ∧ m.opened = none ∧ ∀ base : Event,
      Q (base.reservations + 1) { m with opened := some ⟨e, base, bumpReservations base⟩ }
  | .undo e, Q => ∃ o, m.opened = some o ∧ o.e = e ∧
      Q () { m with opened := some { o with now := undoReservations o.now } }
  | .readSeat e i, Q => ∀ seat : UInt32,
      (∀ o, m.opened = some o → o.e = e → o.now.data[i]? = some seat) → Q seat m
  | .writeSeat e i value, Q => ∃ o, m.opened = some o ∧ o.e = e ∧ m.held .seat = some .write ∧
      (i < o.now.data.length → Q () { m with opened := some { o with now := setSeat o.now i value } })
  | _, Q => ∀ r, Q r m

/-- The steps of the call `c`. -/
def books (c : Op) : Spec Lock Action Answer Book where
  lock l mode Q m := Q { m with held := Function.update m.held l (some mode) }
  unlock l Q m := booksUnlock c Q m l
  act e Q m := booksAct c m e Q
  undefined _ := True
  lock_mono hQ h := hQ _ h
  unlock_mono := by
    intro l Q Q' m hQ h
    cases l with
    | event =>
      refine ⟨fun hw => ?_, fun hw => ⟨(h.2 hw).1, hQ _ (h.2 hw).2⟩⟩
      obtain ⟨o, q, ho, hc, hf, hr, hno, hpost⟩ := h.1 hw
      exact ⟨o, q, ho, hc, hf, hr, hno, hQ _ hpost⟩
    | seat => exact ⟨h.1, hQ _ h.2⟩
    | _ => exact hQ _ h
  act_mono := by
    intro e Q Q' m hQ h
    cases e with
    | lookup => exact fun r => hQ _ _ (h r)
    | load => exact fun event he => hQ _ _ (h event he)
    | append => exact ⟨h.1, h.2.1, h.2.2.1, hQ _ _ h.2.2.2.1, hQ _ _ h.2.2.2.2⟩
    | bump => exact ⟨h.1, h.2.1, fun base => hQ _ _ (h.2.2 base)⟩
    | undo =>
      obtain ⟨o, ho, he, hpost⟩ := h
      exact ⟨o, ho, he, hQ _ _ hpost⟩
    | readSeat => exact fun seat hs => hQ _ _ (h seat hs)
    | writeSeat =>
      obtain ⟨o, ho, he, hs, hpost⟩ := h
      exact ⟨o, ho, he, hs, fun hi => hQ _ _ (hpost hi)⟩
    | _ => exact fun r => hQ _ _ (h r)

/-- The call changes the list. -/
def Op.changes : Op → Bool
  | .create _ _ _ => true
  | .reserve _ => true
  | _ => false

/-- What is so when a call returns: nothing is under way, and its effect is there exactly
when it has succeeded. -/
structure Settled (c : Op) (ret : Nat) (m : Book) : Prop where
  opened : m.opened = none
  committed : m.committed = (c.changes && ret == 0)

section Rules

variable {c : Op} {m : Book}

/-- A lock that is taken is held. -/
@[simp] theorem books_lock {l : Lock} {mode : Mode} {Q : Book → Prop} :
    (books c).lock l mode Q m = Q { m with held := Function.update m.held l (some mode) } := rfl

/-- Giving back the lock of the events decides on the change. -/
@[simp] theorem books_unlock {l : Lock} {Q : Book → Prop} :
    (books c).unlock l Q m = booksUnlock c Q m l := rfl

/-- An action, and what it means for the change. -/
@[simp] theorem books_act {e : Action} {Q : Answer e → Book → Prop} :
    (books c).act e Q m = booksAct c m e Q := rfl

/-- Nothing is said of undefined steps. -/
@[simp] theorem books_undefined : (books c).undefined m := trivial

end Rules

/-! ## The four operations -/

section Calls

variable {c : Op} {held : Held Lock} {found : Option (UInt32 × Nat)} {file : Option Mode}

/-- Nothing has been begun. -/
theorem settled_none {ret : Nat} (h : (c.changes && ret == 0) = false) :
    Settled c ret ⟨held, found, none, false⟩ := ⟨rfl, h.symm⟩

/-- Every way out of `ems_create` has settled its change. -/
theorem create_books (id : UInt32) (rows cols : UInt64) :
    (emsCreate id rows cols).wp (books (.create id rows cols)) (Settled (.create id rows cols))
      ⟨locks none none none file, none, none, false⟩ := by
  have hfail : ∀ held found, Settled (.create id rows cols) 1 ⟨held, found, none, false⟩ :=
    fun _ _ => settled_none rfl
  have hdone : ∀ held found, Settled (.create id rows cols) 0 ⟨held, found, none, true⟩ :=
    fun _ _ => ⟨rfl, rfl⟩
  unfold emsCreate
  simp [hfail, hdone]
  rfl

/-- What the loops of `ems_reserve` are in the middle of. -/
def midway (held : Held Lock) (q : Request) (e : Nat) (base now : Event) : Book :=
  ⟨held, some (q.eventId, e), some ⟨e, base, now⟩, false⟩

/-- The first loop is `markFrom`. -/
theorem markSeats_books {q : Request} {e : Nat} (base : Event) {r : UInt32}
    {post : Nat → Book → Prop} (hseat : held .seat = some .write) (n : Nat) :
    ∀ {i now}, Touched base now q 0 i →
      (∀ i' now', markFrom now q r i n = (now', i') → Touched base now' q 0 i' →
        post i' (midway held q e base now')) →
      (markSeats e q r i n).wp (books c) post (midway held q e base now) := by
  induction n with
  | zero => exact fun h hpost => hpost _ _ rfl h
  | succ n ih =>
    intro i now h hpost
    unfold markFrom refused at hpost
    simp [markSeats, midway]
    refine ⟨fun hout => ?_, fun hin seat hs => ⟨fun heq => ⟨hseat, fun hroom => ?_⟩, fun hne => ?_⟩⟩
    · exact hpost i now (by simp [hout]) h
    · have hget : getSeat now (index now q i) = 0 := by
        unfold getSeat
        rw [List.getD_eq_getElem?_getD, hs, heq]
        rfl
      refine ih (h.mark hget hroom) fun i' now' hmark => hpost i' now' ?_
      simp [hin, hget, hmark]
    · have hget : getSeat now (index now q i) = seat := by
        unfold getSeat
        rw [List.getD_eq_getElem?_getD, hs]
        rfl
      exact hpost i now (by simp [hget, hne]) h

/-- The second loop ends with the event as it was. -/
theorem clearSeats_books {q : Request} {e : Nat} (base : Event) {post : Unit → Book → Prop}
    (hseat : held .seat = some .write) (hpost : post () (midway held q e base base)) (n : Nat) :
    ∀ {j now}, Touched base now q j (j + n) → now.reservations = base.reservations →
      (clearSeats e q j n).wp (books c) post (midway held q e base now) := by
  induction n with
  | zero =>
    intro j now h hres
    rw [h.eq_base hres]
    exact hpost
  | succ n ih =>
    intro j now h hres
    simp [clearSeats, midway]
    refine ⟨hseat, fun _ => ?_⟩
    have hclear := h.clear (by omega)
    rw [show j + (n + 1) = j + 1 + n by omega] at hclear
    exact ih hclear hres

/-- Every way out of `ems_reserve` has settled its change. -/
theorem reserve_books (q : Request) :
    (emsReserve q).wp (books (.reserve q)) (Settled (.reserve q))
      ⟨locks none none none file, none, none, false⟩ := by
  have hfail : ∀ held found, Settled (.reserve q) 1 ⟨held, found, none, false⟩ :=
    fun _ _ => settled_none rfl
  unfold emsReserve
  simp [hfail]
  intro found
  cases found with
  | none => exact hfail _ _
  | some e =>
    simp [reserveEvent]
    intro base
    refine wp_bind _ _ (markSeats_books base rfl _ (Touched.start q base)
      fun i now hmark htouch => ?_)
    have hres : now.reservations = base.reservations + 1 := by
      have h := markFrom_reservations q (base.reservations + 1) q.numSeats.toNat
        (bumpReservations base) 0
      rwa [hmark] at h
    rw [wp_ite]
    refine ⟨fun hlt => ?_, fun hge => ?_⟩
    · simp [midway]
      refine wp_bind _ _ (clearSeats_books base rfl ?_ i ?_ ?_)
      · simp [midway, hfail]
      · rw [Nat.zero_add]
        exact htouch.undo
      · show now.reservations - 1 = _
        rw [hres]
        exact UInt32.add_sub_cancel _ _
    · have hreserve : reserveSeats base q = (now, 0) := by
        unfold reserveSeats
        rw [hmark]
        exact if_neg hge
      simp [midway, hreserve]
      exact ⟨rfl, rfl⟩

/-- What the operations that print leave as it is. -/
def Idle (m : Book) : Prop := m.opened = none ∧ m.committed = false

/-- Writing changes no event. -/
theorem safeWriteIn_books {m : Book} {post : Bool → Book → Prop} (hpost : ∀ ok, post ok m) (n : Nat) :
    ∀ {text}, (safeWriteIn n text).wp (books c) post m := by
  induction n with
  | zero => exact hpost true
  | succ n ih =>
    intro text
    cases text with
    | nil => exact hpost true
    | cons d text =>
      intro wbytes
      cases wbytes with
      | none => exact hpost false
      | some i => exact ih

/-- A flush changes no event. -/
theorem flush_books {m : Book} {out : Output} {fail : Code Unit} {post : Option Output → Book → Prop}
    (hfail : ∀ held, fail.wp (books c) (fun _ => post none) { m with held := held })
    (hpost : ∀ out held, post (some out) { m with held := held }) :
    (flush out fail).wp (books c) post m := by
  have hwrite : ∀ held, (safeWrite out.buffer >>= fun written =>
      if !written then fail >>= fun _ => pure none else pure (some ⟨[], true⟩)).wp (books c) post
        { m with held := held } := fun held => by
    refine wp_bind _ _ (safeWriteIn_books (fun ok => ?_) _)
    rw [wp_ite]
    exact ⟨fun _ => wp_bind _ _ (hfail held), fun _ => hpost _ held⟩
  unfold flush
  rw [wp_ite, wp_lockFile]
  exact ⟨fun _ => ⟨fun _ => hwrite m.held, fun _ => hwrite _⟩, fun _ => hpost out m.held⟩

/-- The last flush changes no event. -/
theorem finish_books {m : Book} {out : Output} {unlock : Code Unit} {post : Nat → Book → Prop}
    (hunlock : ∀ {post : Unit → Book → Prop} held, (∀ held, post () { m with held := held }) →
      unlock.wp (books c) post { m with held := held })
    (hpost : ∀ ret held, post ret { m with held := held }) :
    (finish out unlock).wp (books c) post m := by
  have hwrite : ∀ held, (safeWrite out.buffer >>= fun written =>
      if !written then unlock >>= fun _ => .unlock .file (pure 1)
      else .unlock .file (unlock >>= fun _ => pure 0)).wp (books c) post { m with held := held } := by
    intro held
    refine wp_bind _ _ (safeWriteIn_books (fun ok => ?_) _)
    rw [wp_ite]
    exact ⟨fun _ => wp_bind _ _ (hunlock _ fun _ => hpost _ _),
      fun _ => wp_bind _ _ (hunlock _ fun _ => hpost _ _)⟩
  unfold finish
  rw [wp_lockFile]
  exact ⟨fun _ => hwrite m.held, fun _ => hwrite _⟩

/-- Printing a row changes no event. -/
theorem showRow_books {e i : Nat} {event : Event} (n : Nat) :
    ∀ {j out m}, Idle m → (showRow e event i j n out).wp (books c) (fun _ => Idle) m := by
  induction n with
  | zero => exact fun h => h
  | succ n ih =>
    intro j out m h
    simp [showRow, h.1]
    refine fun seat => ⟨⟨rfl, h.2⟩, fun _ =>
      wp_bind _ _ (flush_books (fun held => ?_) fun out' held => ih h)⟩
    simp [h.1]
    exact ⟨rfl, h.2⟩

/-- Printing the rows changes no event. -/
theorem showRows_books {e : Nat} {event : Event} (n : Nat) :
    ∀ {i out m}, Idle m → (showRows e event i n out).wp (books c) (fun _ => Idle) m := by
  induction n with
  | zero => exact fun h => h
  | succ n ih =>
    intro i out m h
    refine wp_bind _ _ (wp_mono (fun row m' h' => ?_) (showRow_books _ h))
    cases row with
    | none => exact h'
    | some out' =>
      simp
      exact fun _ => ih h'

/-- A call that prints has no effect on the list. -/
theorem Idle.settled {m : Book} (h : Idle m) (hc : c.changes = false) (ret : Nat) :
    Settled c ret m := ⟨h.1, by rw [h.2, hc]; rfl⟩

/-- `ems_show` has no change to settle. -/
theorem show_books (id : UInt32) :
    (emsShow id).wp (books (.showEvent id)) (Settled (.showEvent id))
      ⟨locks none none none file, none, none, false⟩ := by
  have hidle : ∀ ret held found, Settled (.showEvent id) ret ⟨held, found, none, false⟩ :=
    fun _ _ _ => settled_none rfl
  unfold emsShow
  simp [hidle]
  intro found
  cases found with
  | none => exact hidle _ _ _
  | some e =>
    simp [showEvent]
    refine fun event => wp_bind _ _ (wp_mono (fun rows m h => ?_) (showRows_books _ ⟨rfl, rfl⟩))
    cases rows with
    | none => exact h.settled rfl _
    | some out =>
      simp [h.1]
      exact finish_books (fun held hpost => hpost held) fun ret held =>
        (show Idle ⟨held, m.found, none, m.committed⟩ from ⟨rfl, h.2⟩).settled rfl ret

/-- Printing the ids changes no event. -/
theorem listNodes_books (n : Nat) :
    ∀ {i out m}, Idle m → (listNodes i n out).wp (books c) (fun _ => Idle) m := by
  induction n with
  | zero => exact fun h => h
  | succ n ih =>
    intro i out m h
    simp [listNodes]
    refine fun id => ⟨h, fun _ =>
      wp_bind _ _ (flush_books (fun held => ?_) fun out' held => ih h)⟩
    simp
    exact h

/-- `ems_list_events` has no change to settle. -/
theorem list_books :
    emsListEvents.wp (books .listEvents) (Settled .listEvents)
      ⟨locks none none none file, none, none, false⟩ := by
  have hfinish : ∀ {out m}, Idle m →
      (finish out (release .list)).wp (books .listEvents) (Settled .listEvents) m := fun {out m} h =>
    finish_books (fun held hpost => hpost _) fun ret held =>
      (show Idle ⟨held, m.found, m.opened, m.committed⟩ from h).settled rfl ret
  unfold emsListEvents
  simp
  refine ⟨settled_none rfl, fun n => ⟨fun _ => hfinish ⟨rfl, rfl⟩, fun _ => ?_⟩⟩
  refine wp_bind _ _ (wp_mono (fun text m h => ?_) (listNodes_books _ ⟨rfl, rfl⟩))
  cases text with
  | none => exact h.settled rfl _
  | some out => exact hfinish h

/-- **One call** changes the list as one step would, or not at all. -/
theorem code_books (c : Op) :
    c.code.wp (books c) (Settled c) ⟨locks none none none file, none, none, false⟩ := by
  cases c with
  | create id rows cols => exact create_books id rows cols
  | reserve q => exact reserve_books q
  | showEvent id => exact show_books id
  | listEvents => exact list_books

end Calls

end Ems.Jobs.Programs
