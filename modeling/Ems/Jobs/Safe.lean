import Ems.Conc.Modular
import Ems.Jobs.Buffer
import Ems.Jobs.Commits
import Ems.Jobs.Snapshots

/-!
# No operation leaves its memory

Every event that is in the list has a cell for each of its seats, and `ems_show` can hold
in its buffer what it prints between two flushes of it. `safe` looks at one operation among
others: it uses cells of events only, it never writes behind the end of its buffer and it
never asks `write` for nothing. The other threads can do no more to it than add events and
change the seats (`Grows`), and neither takes a cell away, so that all of this stays so in
every interleaving, whatever the library calls answer (`operations_contained`).

The events have to fit: fewer than 2^62 seats, which is how many cells `malloc` can be
asked for, and a column or no more rows than the buffer has bytes. An event of another kind
is let in by `ems_create` and then used as if it fitted.
-/

namespace Ems.Jobs

/-- The event has its cells, and its lines fit the buffer. -/
structure Event.Fits (event : Event) : Prop where
  seats : event.rows.toNat * event.cols.toNat < 2 ^ 64
  cells : event.data.length = event.rows.toNat * event.cols.toNat
  lines : event.cols ≠ 0 ∨ event.rows.toNat ≤ Programs.bufsiz

namespace Programs

open Conc Conc.Program
open Server (Request)
open Client (decimal idLine)

/-- What is created fits. -/
def Op.Fits : Op → Prop
  | .create _ numRows numCols => numRows.toNat * numCols.toNat * 4 < 2 ^ 64 ∧
      (numCols ≠ 0 ∨ numRows.toNat ≤ bufsiz)
  | _ => True

/-- The `i`-th cell of the event at position `e`. -/
def HasCell (list : EventList) (e i : Nat) : Prop :=
  ∃ event, list[e]? = some event ∧ i < event.rows.toNat * event.cols.toNat

/-! ## What an operation may do -/

/-- An action on a list of which `m` is known: it has at least these events. -/
@[simp] def safeAct (m : EventList) : (e : Action) → (Answer e → EventList → Prop) → Prop
  | .initialized, Q => ∀ r, Q r m
  | .lookup eventId, Q => ∀ list, Q (getEvent list eventId) list
  | .load e, Q => ∃ base, m[e]? = some base ∧
      ∀ event : Event, event.shape = base.shape → event.Fits → Q event m
  | .malloc, Q => ∀ r, Q r m
  | .append event, Q => event.Fits ∧ ∀ r, Q r m
  | .bump e, Q => e < m.length ∧ ∀ r, Q r m
  | .undo e, Q => e < m.length ∧ Q () m
  | .readSeat e i, Q => HasCell m e i ∧ ∀ r, Q r m
  | .writeSeat e i _, Q => HasCell m e i ∧ Q () m
  | .nodes, Q => ∀ list, Q list.length list
  | .nodeId i, Q => i < m.length ∧ ∀ r, Q r m
  | .snprintf, Q => ∀ r, Q r m
  | .write text, Q => 0 < text.length ∧ ∀ r, Q r m

/-- Steps that use nothing that is not there. -/
def safe : Spec Lock Action Answer EventList where
  lock _ _ Q m := Q m
  unlock _ Q m := Q m
  act e Q m := safeAct m e Q
  undefined _ := False
  lock_mono hQ h := hQ _ h
  unlock_mono hQ h := hQ _ h
  act_mono := by
    intro e Q Q' m hQ h
    cases e with
    | initialized => exact fun r => hQ _ _ (h r)
    | lookup => exact fun list => hQ _ _ (h list)
    | load =>
      obtain ⟨base, hbase, hall⟩ := h
      exact ⟨base, hbase, fun event hs hf => hQ _ _ (hall event hs hf)⟩
    | malloc => exact fun r => hQ _ _ (h r)
    | append => exact ⟨h.1, fun r => hQ _ _ (h.2 r)⟩
    | bump => exact ⟨h.1, fun r => hQ _ _ (h.2 r)⟩
    | undo => exact ⟨h.1, hQ _ _ h.2⟩
    | readSeat => exact ⟨h.1, fun r => hQ _ _ (h.2 r)⟩
    | writeSeat => exact ⟨h.1, hQ _ _ h.2⟩
    | nodes => exact fun list => hQ _ _ (h list)
    | nodeId => exact ⟨h.1, fun r => hQ _ _ (h.2 r)⟩
    | snprintf => exact fun r => hQ _ _ (h r)
    | write => exact ⟨h.1, fun r => hQ _ _ (h.2 r)⟩

section Rules

variable {m : EventList}

/-- A lock is no access. -/
@[simp] theorem safe_lock {l : Lock} {mode : Mode} {Q : EventList → Prop} :
    safe.lock l mode Q m = Q m := rfl

/-- An unlock is no access. -/
@[simp] theorem safe_unlock {l : Lock} {Q : EventList → Prop} : safe.unlock l Q m = Q m := rfl

/-- An action, with the cells it needs. -/
@[simp] theorem safe_act {e : Action} {Q : Answer e → EventList → Prop} :
    safe.act e Q m = safeAct m e Q := rfl

/-- An undefined step is not allowed. -/
@[simp] theorem safe_undefined : ¬ safe.undefined m := id

end Rules

/-! ## ems_create, ems_reserve -/

/-- A block for all seats of the event, and a buffer for its newlines. -/
theorem fits_new {id : UInt32} {rows cols : UInt64}
    (h : rows.toNat * cols.toNat * 4 < 2 ^ 64 ∧ (cols ≠ 0 ∨ rows.toNat ≤ bufsiz)) :
    Event.Fits ⟨id, 0, cols, rows, zeroedCells rows cols⟩ where
  seats := by
    show rows.toNat * cols.toNat < 2 ^ 64
    omega
  cells := by
    show (zeroedCells rows cols).length = _
    rw [zeroedCells_eq h.1, List.length_replicate]
  lines := h.2

/-- `ems_create` appends an event that fits. -/
theorem create_safe {id : UInt32} {rows cols : UInt64}
    (h : rows.toNat * cols.toNat * 4 < 2 ^ 64 ∧ (cols ≠ 0 ∨ rows.toNat ≤ bufsiz)) (m : EventList) :
    (emsCreate id rows cols).wp safe (fun _ _ => True) m := by
  unfold emsCreate
  simp [fits_new h]

section Loops

variable {m : EventList} {base : Event} {e : Nat} {q : Request}

/-- Every seat that passes the test of the bounds has a cell. -/
theorem hasCell_of_inside (hbase : m[e]? = some base) {event : Event}
    (hs : event.shape = base.shape) (hf : event.Fits) {row col : UInt64}
    (hin : outOfBounds event row col = false) : HasCell m e (seatIndex event row col).toNat := by
  have hlt := seatIndex_lt_mul hf.seats (outOfBounds_eq_false.mp hin)
  have hrows : event.rows = base.rows := congrArg (·.2.1) hs
  have hcols : event.cols = base.cols := congrArg (·.2.2) hs
  rw [hrows, hcols] at hlt
  exact ⟨base, hbase, hlt⟩

/-- The first loop: the seats before the one it ends at have cells. -/
theorem markSeats_safe {r : UInt32} {post : Nat → EventList → Prop}
    (hbase : m[e]? = some base)
    (hpost : ∀ i, (∀ j < i, HasCell m e (index base q j)) → post i m) (n : Nat) :
    ∀ {i}, (∀ j < i, HasCell m e (index base q j)) →
      (markSeats e q r i n).wp safe post m := by
  induction n with
  | zero => exact fun h => hpost _ h
  | succ n ih =>
    intro i h
    simp only [markSeats, perform_bind, wp_act, safe_act, safeAct, wp_ite, wp_pure]
    refine ⟨base, hbase, fun event hs hf => ⟨fun _ => hpost _ h, fun hin => ?_⟩⟩
    rw [Bool.not_eq_true] at hin
    have hcell : HasCell m e (index event q i) := hasCell_of_inside hbase hs hf hin
    refine ⟨hcell, fun seat => ⟨fun _ => hpost _ h, fun _ => ⟨hcell, ih fun j hj => ?_⟩⟩⟩
    rcases Nat.lt_succ_iff_lt_or_eq.mp hj with hlt | rfl
    · exact h j hlt
    · rw [← index_shape hs]
      exact hcell

/-- Undoing seats stays in the block. -/
theorem clearSeats_safe {post : Unit → EventList → Prop} (hbase : m[e]? = some base)
    (hpost : post () m) (n : Nat) :
    ∀ {j}, (∀ k < j + n, HasCell m e (index base q k)) → (clearSeats e q j n).wp safe post m := by
  induction n with
  | zero => exact fun _ => hpost
  | succ n ih =>
    intro j h
    simp only [clearSeats, perform_bind, wp_act, safe_act, safeAct]
    refine ⟨base, hbase, fun event hs _ => ⟨?_, ih fun k hk => h k (by omega)⟩⟩
    rw [index_shape hs]
    exact h j (by omega)

/-- `ems_reserve` stays in the block. -/
theorem reserve_safe (q : Request) (m : EventList) :
    (emsReserve q).wp safe (fun _ _ => True) m := by
  unfold emsReserve
  simp
  intro list
  cases hfound : getEvent list q.eventId with
  | none => simp
  | some e =>
    have hlt := getEvent_lt hfound
    have hbase := List.getElem?_eq_getElem hlt
    simp [reserveEvent, hlt]
    refine fun r => wp_bind _ _ (markSeats_safe hbase (fun i hi => ?_) _ (by simp))
    simp [hlt]
    refine fun _ => wp_bind _ _ (clearSeats_safe hbase (by simp) _ fun k hk => hi k ?_)
    omega

end Loops

/-! ## Output -/

section Output

variable {m : EventList}

/-- Writing accesses no seat. -/
theorem safeWriteIn_safe {post : Bool → EventList → Prop} (hpost : ∀ ok, post ok m) (n : Nat) :
    ∀ {text}, (safeWriteIn n text).wp safe post m := by
  induction n with
  | zero => exact hpost true
  | succ n ih =>
    intro text
    cases text with
    | nil => exact hpost true
    | cons d text =>
      refine ⟨Nat.succ_pos _, fun wbytes => ?_⟩
      cases wbytes with
      | none => exact hpost false
      | some i => exact ih

/-- Behind a flush, or the test for one, there is room for another line. -/
theorem flush_safe {out : Output} {fail : Code Unit} {post : Option Output → EventList → Prop}
    (hfail : fail.wp safe (fun _ => post none) m)
    (hpost : ∀ out', out'.buffer.length + 20 < 8192 → post (some out') m) :
    (flush out fail).wp safe post m := by
  have hwrite : (safeWrite out.buffer >>= fun written =>
      if !written then fail >>= fun _ => pure none else pure (some ⟨[], true⟩)).wp safe post m := by
    refine wp_bind _ _ (safeWriteIn_safe (fun ok => ?_) _)
    rw [wp_ite]
    exact ⟨fun _ => wp_bind _ _ hfail, fun _ => hpost _ (by simp)⟩
  unfold flush
  rw [wp_ite, wp_lockFile]
  exact ⟨fun _ => ⟨fun _ => hwrite, fun _ => hwrite⟩, fun hfull =>
    hpost out (full_eq_false.mp (Bool.eq_false_of_not_eq_true hfull))⟩

/-- The last flush accesses no seat. -/
theorem finish_safe {out : Output} {unlock : Code Unit}
    (hunlock : ∀ {post : Unit → EventList → Prop}, post () m → unlock.wp safe post m) :
    (finish out unlock).wp safe (fun _ _ => True) m := by
  have hwrite : (safeWrite out.buffer >>= fun written =>
      if !written then unlock >>= fun _ => .unlock .file (pure 1)
      else .unlock .file (unlock >>= fun _ => pure 0)).wp safe (fun _ _ => True) m := by
    refine wp_bind _ _ (safeWriteIn_safe (fun ok => ?_) _)
    rw [wp_ite]
    exact ⟨fun _ => wp_bind _ _ (hunlock trivial), fun _ => wp_bind _ _ (hunlock trivial)⟩
  unfold finish
  rw [wp_lockFile]
  exact ⟨fun _ => hwrite, fun _ => hwrite⟩

/-- What the loops of the operations that print end with. -/
def Room (m : EventList) (room : Output → Prop) : Option Output → EventList → Prop
  | none, _ => True
  | some out, m' => m' = m ∧ room out

variable {base event : Event} {e : Nat}

/-- A row is read inside the block and printed inside the buffer. -/
theorem showRow_safe {i : Nat} (hbase : m[e]? = some base) (hs : event.shape = base.shape)
    (hf : event.Fits) (hi : 1 ≤ i) (hrows : i ≤ event.rows.toNat) (n : Nat) :
    ∀ {j out}, 1 ≤ j → j + n = event.cols.toNat + 1 → out.buffer.length + 20 ≤ 8192 →
      (showRow e event i j n out).wp safe
        (Room m fun out' => out'.buffer.length + 20 < 8192 ∨ n = 0 ∧ out' = out) m := by
  induction n with
  | zero => exact fun _ _ _ => ⟨rfl, .inr ⟨rfl, rfl⟩⟩
  | succ n ih =>
    intro j out hj hn hroom
    simp only [showRow, perform_bind, wp_act, safe_act, safeAct]
    have hin : outOfBounds event (UInt64.ofNat i) (UInt64.ofNat j) = false :=
      outOfBounds_eq_false.mpr (inside_ofNat hi hrows hj (by omega))
    refine ⟨hasCell_of_inside hbase hs hf hin, fun seat added => ?_⟩
    rw [wp_ite]
    refine ⟨fun _ => trivial, fun _ => ?_⟩
    rw [wp_printSeat]
    have hdigits := decimal_length seat
    refine ⟨fun _ => wp_bind _ _ (flush_safe trivial fun out' hroom' => ?_), fun hfull => ?_⟩
    · refine wp_mono (fun r _ h => ?_) (ih (j := j + 1) (by omega) (by omega) (Nat.le_of_lt hroom'))
      cases r with
      | none => trivial
      | some out'' =>
        obtain ⟨hm, hlt | ⟨-, rfl⟩⟩ := h
        · exact ⟨hm, .inl hlt⟩
        · exact ⟨hm, .inl hroom'⟩
    -- a number has at most ten digits, and there are 20 bytes
    · unfold bufsiz at hfull
      omega

/-- Without columns the buffer gets one newline for each row, and there are not too many. -/
theorem showRows_safe (hbase : m[e]? = some base) (hs : event.shape = base.shape)
    (hf : event.Fits) (n : Nat) :
    ∀ {i out}, 1 ≤ i → i + n = event.rows.toNat + 1 →
      (event.cols ≠ 0 → out.buffer.length + 20 ≤ 8192) →
      (event.cols = 0 → out.buffer.length + 1 = i) →
      (showRows e event i n out).wp safe (fun _ _ => True) m := by
  induction n with
  | zero => exact fun _ _ _ _ => trivial
  | succ n ih =>
    intro i out hi hn hroom hzero
    simp only [showRows]
    by_cases hcols : event.cols = 0
    · have hrows : event.rows.toNat ≤ 8192 := hf.lines.resolve_left fun hne => hne hcols
      have hlen := hzero hcols
      rw [show event.cols.toNat = 0 by rw [hcols]; rfl]
      simp only [showRow, pure_bind, wp_putChar]
      refine ⟨fun _ => ih (by omega) (by omega) (fun hne => absurd hcols hne) fun _ => ?_,
        fun hfull => ?_⟩
      · rw [List.length_append, List.length_singleton]
        omega
      · unfold bufsiz at hfull
        omega
    · refine wp_bind _ _ (wp_mono (fun r m' h => ?_) (showRow_safe hbase hs hf hi (by omega) _
        (Nat.le_refl 1) (Nat.add_comm _ _) (hroom hcols)))
      cases r with
      | none => trivial
      | some out' =>
        obtain ⟨rfl, hlast⟩ := h
        have hlt : out'.buffer.length + 20 < 8192 := by
          rcases hlast with hlt | ⟨hno, -⟩
          · exact hlt
          · exact absurd (UInt64.toNat_inj.mp (hno.trans rfl)) hcols
        dsimp only
        rw [wp_putChar]
        refine ⟨fun _ => ih (by omega) (by omega) (fun _ => ?_) fun hno => absurd hno hcols,
          fun hfull => ?_⟩
        · rw [List.length_append, List.length_singleton]
          omega
        · unfold bufsiz at hfull
          omega

/-- `ems_show` leaves neither the block nor its buffer. -/
theorem show_safe (id : UInt32) (m : EventList) :
    (emsShow id).wp safe (fun _ _ => True) m := by
  unfold emsShow
  simp
  intro list
  cases hfound : getEvent list id with
  | none => simp
  | some e =>
    have hbase := List.getElem?_eq_getElem (getEvent_lt hfound)
    simp only [showEvent, acquire_bind, perform_bind, wp_lock, safe_lock, wp_act, safe_act, safeAct]
    refine ⟨_, hbase, fun event hs hf => wp_bind _ _ (wp_mono (fun rows m' h => ?_)
      (showRows_safe hbase hs hf _ (Nat.le_refl 1) (Nat.add_comm _ _) (by simp) (by simp)))⟩
    cases rows with
    | none => trivial
    | some out => exact finish_safe fun hpost => hpost

/-! ## ems_list_events -/

/-- The ids are printed inside the buffer. -/
theorem listNodes_safe (n : Nat) : ∀ {i out}, i + n = m.length → out.buffer.length + 20 < 8192 →
    (listNodes i n out).wp safe (Room m fun _ => True) m := by
  induction n with
  | zero => exact fun _ _ => ⟨rfl, trivial⟩
  | succ n ih =>
    intro i out hi hroom
    simp only [listNodes, perform_bind, wp_act, safe_act, safeAct]
    refine ⟨by omega, fun id added => ?_⟩
    rw [wp_ite]
    refine ⟨fun _ => trivial, fun _ => ?_⟩
    rw [wp_printText]
    have hline := idLine_length id
    refine ⟨fun _ => wp_bind _ _ (flush_safe trivial fun out' hroom' => ih (by omega) hroom'),
      fun hfull => ?_⟩
    unfold bufsiz at hfull
    omega

/-- `ems_list_events` stays in its buffer. -/
theorem list_safe (m : EventList) : emsListEvents.wp safe (fun _ _ => True) m := by
  have hunlock : ∀ {m : EventList} {post : Unit → EventList → Prop}, post () m →
      (release .list : Code Unit).wp safe post m := fun hpost => hpost
  unfold emsListEvents
  simp
  refine fun list => ⟨fun _ => finish_safe hunlock, fun _ => ?_⟩
  refine wp_bind _ _ (wp_mono (fun r m' h => ?_) (listNodes_safe _ (Nat.zero_add _) (by simp)))
  cases r with
  | none => trivial
  | some out => exact finish_safe hunlock

end Output

/-- **Every operation**, whatever there is in the list. -/
theorem code_safe {c : Op} (h : c.Fits) (m : EventList) : c.code.wp safe (fun _ _ => True) m := by
  cases c with
  | create => exact create_safe h m
  | reserve q => exact reserve_safe q m
  | showEvent id => exact show_safe id m
  | listEvents => exact list_safe m

/-! ## Among others -/

/-- All events fit. -/
def Allocated (s : Store) : Prop := ∀ event ∈ s.list, event.Fits

/-- There are at least the events of `m`. -/
def Sees (m : EventList) (s : Store) : Prop := Grows m s.list

section Answers

variable {x : Choice} {e : Action} {s s' : Store} {r : Answer e} {m : EventList}
  {Q : Answer e → EventList → Prop}

/-- A new value of one event, with the same dimensions and as many cells. -/
theorem allocated_set (h : Allocated s) {k : Nat} {event event' : Event}
    (hk : s.list[k]? = some event) (hs : event'.shape = event.shape)
    (hlen : event'.data.length = event.data.length) :
    Allocated { s with list := s.list.set k event' } := by
  intro f hf
  rcases List.mem_or_eq_of_mem_set hf with hold | rfl
  · exact h f hold
  · have hfits := h event (List.mem_of_getElem? hk)
    have hrows : f.rows = event.rows := congrArg (·.2.1) hs
    have hcols : f.cols = event.cols := congrArg (·.2.2) hs
    refine ⟨?_, ?_, ?_⟩
    · rw [hrows, hcols]
      exact hfits.seats
    · rw [hlen, hrows, hcols]
      exact hfits.cells
    · rw [hrows, hcols]
      exact hfits.lines

/-- What is appended fits, and nothing else changes the dimensions or the cells. -/
theorem Answers.allocated (h : Answers x e s r s') (hall : Allocated s)
    (happend : ∀ event, e = .append event → event.Fits) : Allocated s' := by
  cases h
  case append event hok =>
    intro f hf
    rcases List.mem_append.mp hf with hold | hnew
    · exact hall f hold
    · rw [List.mem_singleton.mp hnew]
      exact happend event rfl
  case bump he => exact allocated_set hall he rfl rfl
  case undo he => exact allocated_set hall he rfl rfl
  case writeSeat he => exact allocated_set hall he rfl List.length_set
  all_goals exact hall

/-- An answer is one of those that `safe` expects. -/
theorem safe_answer (h : Answers x e s r s') (hall : Allocated s) (hm : Sees m s)
    (hwp : safeAct m e Q) : ∃ m', Sees m' s' ∧ Q r m' := by
  have hsees : Sees m s' := hm.trans h.grows
  cases h
  case initialized => exact ⟨m, hsees, hwp _⟩
  case lookup => exact ⟨s.list, Grows.refl _, hwp s.list⟩
  case load event he =>
    obtain ⟨base, hbase, hQ⟩ := hwp
    obtain ⟨event', he', hs⟩ := hm.getElem? hbase
    rw [he] at he'
    cases he'
    exact ⟨m, hsees, hQ event hs (hall event (List.mem_of_getElem? he))⟩
  case malloc => exact ⟨m, hsees, hwp _⟩
  case append => exact ⟨m, hsees, hwp.2 _⟩
  case appendFails => exact ⟨m, hsees, hwp.2 _⟩
  case bump => exact ⟨m, hsees, hwp.2 _⟩
  case undo => exact ⟨m, hsees, hwp.2⟩
  case readSeat => exact ⟨m, hsees, hwp.2 _⟩
  case writeSeat => exact ⟨m, hsees, hwp.2⟩
  case nodes => exact ⟨s.list, Grows.refl _, hwp s.list⟩
  case nodeId => exact ⟨m, hsees, hwp.2 _⟩
  case snprintf => exact ⟨m, hsees, hwp _⟩
  case write => exact ⟨m, hsees, hwp.2 _⟩
  case writeFails => exact ⟨m, hsees, hwp.2 _⟩

/-- `safe` holds among others. -/
theorem safe_modular : Modular system safe Allocated Sees where
  lock hm hwp := ⟨_, hm, hwp⟩
  unlock hm hwp := ⟨_, hm, hwp⟩
  act hall hm hwp hr := safe_answer (answer_cases hr) hall hm hwp
  stable _ _ _ hr hk := hk.trans (answer_cases hr).grows
  kept hall _ hwp hr := (answer_cases hr).allocated hall fun event he => by
    subst he
    exact hwp.1

/-- A cell that the code may use is there. -/
theorem HasCell.cell {k i : Nat} (h : HasCell m k i) (hall : Allocated s) (hm : Sees m s) :
    ∃ event, s.list[k]? = some event ∧ i < event.data.length := by
  obtain ⟨base, hbase, hi⟩ := h
  obtain ⟨event, he, hs⟩ := hm.getElem? hbase
  have hrows : event.rows = base.rows := congrArg (·.2.1) hs
  have hcols : event.cols = base.cols := congrArg (·.2.2) hs
  refine ⟨event, he, ?_⟩
  rw [(hall event (List.mem_of_getElem? he)).cells, hrows, hcols]
  exact hi

/-- What `safe` allows has an answer. -/
theorem answer_isSome (hall : Allocated s) (hm : Sees m s) (hwp : safeAct m e Q) (x : Choice) :
    (answer x e s).isSome = true := by
  have hlen : m.length ≤ s.list.length := by
    have hle := hm.length_le
    rwa [List.length_map, List.length_map] at hle
  cases e with
  | load k =>
    obtain ⟨base, hbase, -⟩ := hwp
    obtain ⟨event, he, -⟩ := hm.getElem? hbase
    simp [answer, he]
  | append event =>
    simp only [answer]
    split <;> rfl
  | bump k =>
    have hk : k < s.list.length := Nat.lt_of_lt_of_le hwp.1 hlen
    simp [answer, Store.onEvent, hk]
  | undo k =>
    have hk : k < s.list.length := Nat.lt_of_lt_of_le hwp.1 hlen
    simp [answer, Store.onEvent, hk]
  | readSeat k i =>
    obtain ⟨event, he, hi⟩ := hwp.1.cell hall hm
    simp [answer, he, hi]
  | writeSeat k i value =>
    obtain ⟨event, he, hi⟩ := hwp.1.cell hall hm
    simp [answer, Store.onEvent, he, hi]
  | nodeId i =>
    have hi : i < s.list.length := Nat.lt_of_lt_of_le hwp.1 hlen
    simp [answer, hi]
  | write text =>
    simp only [answer]
    split
    · rw [dif_pos hwp.1]
      rfl
    · rfl
  | _ => rfl

end Answers

variable {T : Type} [DecidableEq T]

/-- In every run whose calls fit, every operation that is under way stays inside. -/
theorem run_safe {tr : List (Crew.Act T Op Choice)} {s : State T}
    (hrun : (machine T).run tr = some s) (hfits : ∀ t c, Crew.Act.call t c ∈ tr → c.Fits) :
    Crew.Within safe Allocated Sees (fun _ _ _ => True) s :=
  Crew.run_within safe_modular (fun _ h => absurd h List.not_mem_nil)
    (fun _ hc store _ => ⟨store.list, Grows.refl _, code_safe hc _⟩) hrun hfits

/-- **No operation leaves its memory**, in any interleaving of any calls and whatever the
library calls answer. -/
theorem operations_contained {tr : List (Crew.Act T Op Choice)} {s : State T}
    (hrun : (machine T).run tr = some s) (hfits : ∀ t c, Crew.Act.call t c ∈ tr → c.Fits) :
    (∀ event ∈ s.store.list, event.Allocated) ∧
      ∀ t r, s.thread t = some r → r.rest ≠ .undefined ∧
        ∀ e next x, r.rest = .act e next → (answer x e s.store).isSome = true := by
  obtain ⟨hall, hrest⟩ := run_safe hrun hfits
  refine ⟨fun event he => allocated_of_length (hall event he).seats (hall event he).cells,
    fun t r ht => ?_⟩
  obtain ⟨m, hm, hwp⟩ := hrest t r ht
  refine ⟨fun hundef => ?_, fun e next x hact => ?_⟩
  · rw [hundef] at hwp
    exact hwp
  · rw [hact] at hwp
    exact answer_isSome hall hm hwp x

/-- A `SHOW` about to read a seat, and a reservation that has taken its number for it. -/
def showAndReserve : List (Crew.Act Bool Op Choice) :=
  .call false (.create 1 1 1) :: steps false 11 ++ [.ret false, .call false (.showEvent 1)] ++
    steps false 6 ++ [.call true (.reserve ⟨1, 1, fun _ => 1, fun _ => 1⟩)] ++ steps true 8 ++
    steps false 2

/-- A SHOW and a RESERVE of one event. -/
theorem operations_contained_showAndReserve : ∃ s, (machine Bool).run showAndReserve = some s ∧
    ∀ t r, s.thread t = some r → r.rest ≠ .undefined ∧
      ∀ e next x, r.rest = .act e next → (answer x e s.store).isSome = true := by
  obtain ⟨s, hs⟩ := Option.isSome_iff_exists.mp
    (show ((machine Bool).run showAndReserve).isSome = true by decide)
  refine ⟨s, hs, (operations_contained hs fun t c hc => ?_).2⟩
  simp only [showAndReserve, steps] at hc
  simp at hc
  rcases hc with ⟨-, rfl⟩ | ⟨-, rfl⟩ | ⟨-, rfl⟩
  · exact ⟨by decide, .inl (by decide)⟩
  · trivial
  · trivial

end Programs

end Ems.Jobs
