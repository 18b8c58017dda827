import Ems.Jobs.Programs

/-!
# The order of the locks

The four operations take their locks in one order: `eventList_Lock`, `event_Lock`,
`seat_Lock`, `file_Lock`. They give them back in other orders, and on every way out all
of them, with one exception: when `snprintf` fails after a flush, `file_Lock` stays
locked (`Tidy` says that this has not happened). `ems_show` also writes behind the end of
its buffer when the event has no columns and more than `BUFSIZ` rows (`Overflows`).
-/

namespace Ems.Jobs.Programs

open Conc Conc.Program
open Server (Request)
open Client (decimal idLine)

/-- The order. -/
def rank : Lock → Fin 4
  | .list => 0
  | .event => 1
  | .seat => 2
  | .file => 3

/-- Bytes are written to the file. -/
@[simp] def Action.writes : Action → Bool
  | .write _ => true
  | _ => false

/-- No `snprintf` fails once something has been written. -/
def Tidy (past : Past Action Answer) : Prop :=
  ∀ before after, past = before ++ ⟨.snprintf, false⟩ :: after → ∀ x ∈ before, x.1.writes = false

/-- An event without columns, and with more rows than the buffer has bytes. -/
def Overflows (past : Past Action Answer) : Prop :=
  ∃ e, ∃ event : Event, ⟨.load e, event⟩ ∈ past ∧ event.cols = 0 ∧ bufsiz < event.rows.toNat

/-- Where an operation is undefined. -/
def Op.Undefined : Op → Past Action Answer → Prop
  | .showEvent _, past => Overflows past
  | _, _ => False

/-! ## What has been answered -/

/-- No `snprintf` has failed. -/
def Quiet (past : Past Action Answer) : Prop := ∀ x ∈ past, x ≠ ⟨.snprintf, false⟩

section Past

variable {past more : Past Action Answer}

/-- Nothing has failed yet. -/
@[simp] theorem quiet_nil : Quiet [] := fun _ h => absurd h List.not_mem_nil

/-- Nothing has failed in either part. -/
@[simp] theorem quiet_append : Quiet (past ++ more) ↔ Quiet past ∧ Quiet more :=
  List.forall_mem_append

/-- Nothing has failed, the first answer included. -/
@[simp] theorem quiet_cons {x : (e : Action) × Answer e} :
    Quiet (x :: past) ↔ x ≠ ⟨.snprintf, false⟩ ∧ Quiet past := List.forall_mem_cons

/-- Where no `snprintf` has failed, none has failed behind a `write()`. -/
theorem Quiet.tidy (h : Quiet past) : Tidy past := by
  rintro before after rfl
  exact absurd rfl (h _ (by simp))

/-- The first `snprintf` that fails. -/
theorem Quiet.tidy_failed (h : Quiet past) :
    Tidy (past ++ [⟨.snprintf, false⟩]) ↔ ∀ x ∈ past, x.1.writes = false := by
  constructor
  · intro ht
    exact ht past [] rfl
  · intro hpast before after heq
    rcases List.eq_nil_or_concat after with rfl | ⟨after', x, rfl⟩
    · obtain ⟨rfl, -⟩ := List.append_inj' heq rfl
      exact hpast
    · -- it would have failed before
      rw [List.concat_eq_append, ← List.cons_append, ← List.append_assoc] at heq
      obtain ⟨rfl, -⟩ := List.append_inj' heq rfl
      exact absurd rfl (h _ (by simp))

end Past

section Order

variable {U : Past Action Answer → Prop} {held : Held Lock} {past : Past Action Answer}

/-! ## ems_create, ems_reserve -/

/-- Every way out of `ems_create` gives back what it has locked. -/
theorem create_ordered (id : UInt32) (rows cols : UInt64) :
    Ordered rank (fun _ => False) Tidy (emsCreate id rows cols) (fun _ => none) [] := by
  unfold Ordered emsCreate
  rw [locks_none]
  have htidy : ∀ past, Quiet past → Tidy past := fun _ => Quiet.tidy
  simp +contextual [forall_lock, rank, htidy]

/-- Marking seats neither locks nor unlocks. -/
theorem markSeats_ordered {e : Nat} {q : Request} {r : UInt32} {post : Nat → _ → Prop}
    (hpost : ∀ i past, Quiet past → post i (held, past)) (n : Nat) :
    ∀ {i past}, Quiet past → (markSeats e q r i n).wp (ordered rank U) post (held, past) := by
  induction n with
  | zero => exact fun hq => hpost _ _ hq
  | succ n ih =>
    intro i past hq
    simp only [markSeats, perform_bind, wp_act, ordered_act, wp_ite, wp_pure]
    intro event
    refine ⟨fun _ => hpost _ _ (by simp [hq]), fun _ seat => ⟨fun _ => hpost _ _ (by simp [hq]),
      fun _ u => ih (by simp [hq])⟩⟩

/-- Undoing seats neither locks nor unlocks. -/
theorem clearSeats_ordered {e : Nat} {q : Request} {post : Unit → _ → Prop}
    (hpost : ∀ past, Quiet past → post () (held, past)) (n : Nat) :
    ∀ {j past}, Quiet past → (clearSeats e q j n).wp (ordered rank U) post (held, past) := by
  induction n with
  | zero => exact fun hq => hpost _ hq
  | succ n ih =>
    intro j past hq
    simp only [clearSeats, perform_bind, wp_act, ordered_act]
    exact fun event u => ih (by simp [hq])

/-- Every way out of `ems_reserve` gives back what it has locked. -/
theorem reserve_ordered (q : Request) :
    Ordered rank (fun _ => False) Tidy (emsReserve q) (fun _ => none) [] := by
  have htidy : ∀ past, Quiet past → Tidy past := fun _ => Quiet.tidy
  unfold Ordered emsReserve
  rw [locks_none]
  simp [forall_lock, rank, htidy]
  intro found
  cases found with
  | none => simp [htidy]
  | some e =>
    simp [reserveEvent, forall_lock, rank]
    intro r
    refine wp_bind _ _ (markSeats_ordered (fun i past hq => ?_) _ (by simp))
    simp [htidy, hq]
    intro hi u
    refine wp_bind _ _ (clearSeats_ordered (fun past hq => ?_) _ (by simp [hq]))
    simp [htidy, hq]

/-! ## Output -/

/-- What `safe_write` does. -/
theorem safeWriteIn_ordered {post : Bool → _ → Prop} (n : Nat) : ∀ {text past},
    (∀ ok more, (∀ x ∈ more, x.1.writes = true) → (n ≠ 0 → text ≠ [] → more ≠ []) →
      post ok (held, past ++ more)) →
    (safeWriteIn n text).wp (ordered rank U) post (held, past) := by
  induction n with
  | zero =>
    intro text past hpost
    have hdone := hpost true [] (fun _ h => absurd h List.not_mem_nil) (fun h => absurd rfl h)
    rwa [List.append_nil] at hdone
  | succ n ih =>
    intro text past hpost
    cases text with
    | nil =>
      have hdone := hpost true [] (fun _ h => absurd h List.not_mem_nil) (fun _ h => absurd rfl h)
      rwa [List.append_nil] at hdone
    | cons c text =>
      simp only [safeWriteIn, perform_bind, wp_act, ordered_act]
      intro wbytes
      have hone : ∀ x ∈ [(⟨.write (c :: text), wbytes⟩ : (e : Action) × Answer e)],
          x.1.writes = true := by
        intro x hx
        rw [List.mem_singleton.mp hx]
        rfl
      cases wbytes with
      | none => exact hpost false _ hone fun _ _ => List.cons_ne_nil _ _
      | some i =>
        refine ih fun ok more hmore _ => ?_
        rw [List.append_assoc]
        refine hpost ok _ (fun x hx => ?_) fun _ _ => List.cons_ne_nil _ _
        rcases List.mem_append.mp hx with hx | hx
        · exact hone x hx
        · exact hmore x hx

/-- The answers of an operation that prints, up to some point without failures: something
has been written exactly when it has flushed. -/
structure Printing (flushed : Bool) (past : Past Action Answer) : Prop where
  quiet : Quiet past
  wrote : flushed = false ↔ ∀ x ∈ past, x.1.writes = false

/-- From `past` on there were only writes. -/
def Wrote (past past' : Past Action Answer) : Prop :=
  ∃ more, past' = past ++ more ∧ ∀ x ∈ more, x.1.writes = true

/-- What `load` has said. -/
def Loaded (event : Event) (past : Past Action Answer) : Prop :=
  ∀ event', (∃ e, ⟨.load e, event'⟩ ∈ past) ↔ event' = event

section Printing

variable {event : Event} {flushed : Bool} {past past' more : Past Action Answer}

/-- A call that is no output. -/
theorem Printing.snoc (h : Printing flushed past) {x : (e : Action) × Answer e}
    (hq : x ≠ ⟨.snprintf, false⟩) (hw : x.1.writes = false) : Printing flushed (past ++ [x]) where
  quiet := by simp [h.quiet, hq]
  wrote := by
    rw [h.wrote, List.forall_mem_append, List.forall_mem_singleton]
    exact ⟨fun hall => ⟨hall, hw⟩, fun hall => hall.1⟩

/-- A `write()` is no `snprintf`. -/
theorem quiet_of_writes (h : ∀ x ∈ more, x.1.writes = true) : Quiet more := by
  rintro x hx rfl
  exact absurd (h _ hx) nofun

/-- A flush. -/
theorem Printing.flush (h : Printing flushed past) (hmore : ∀ x ∈ more, x.1.writes = true)
    (hne : more ≠ []) : Printing true (past ++ more) where
  quiet := by simp [h.quiet, quiet_of_writes hmore]
  wrote := by
    obtain ⟨x, hx⟩ := List.exists_mem_of_ne_nil more hne
    refine iff_of_false nofun fun hall => ?_
    have hno := hall x (List.mem_append_right _ hx)
    rw [hmore x hx] at hno
    cases hno

/-- The first failure: the file is locked if there has been a flush. -/
theorem Printing.tidy (h : Printing flushed past) :
    Tidy (past ++ [⟨.snprintf, false⟩]) ↔ flushed = false := by
  rw [h.quiet.tidy_failed, h.wrote]

/-- Nothing but the event has been looked at. -/
theorem Loaded.append (h : Loaded event past) (hmore : ∀ e event', ⟨.load e, event'⟩ ∉ more) :
    Loaded event (past ++ more) := by
  intro event'
  rw [← h event']
  exact exists_congr fun e =>
    ⟨fun hx => (List.mem_append.mp hx).resolve_right (hmore e event'), List.mem_append_left _⟩

/-- Writing is no look at an event. -/
theorem Loaded.wrote (h : Loaded event past) (hw : Wrote past past') : Loaded event past' := by
  obtain ⟨more, rfl, hmore⟩ := hw
  exact h.append fun e event' hx => absurd (hmore _ hx) nofun

/-- Its dimensions decide whether the newlines overflow the buffer. -/
theorem Loaded.overflows_iff (h : Loaded event past) :
    Overflows past ↔ event.cols = 0 ∧ bufsiz < event.rows.toNat := by
  constructor
  · rintro ⟨e, event', hx, hover⟩
    rwa [(h event').mp ⟨e, hx⟩] at hover
  · intro hover
    obtain ⟨e, hx⟩ := (h event).mpr rfl
    exact ⟨e, event, hx, hover⟩

end Printing

/-- A number has at most ten digits. -/
theorem decimal_length (n : UInt32) : (decimal n).length ≤ 10 := by
  unfold decimal
  rw [Nat.length_toDigits_le_iff (by decide) (by decide)]
  have := n.toNat_lt
  omega

/-- An id takes ten digits at most. -/
theorem idLine_length (id : UInt32) : (idLine id).length ≤ 18 := by
  have hlen := decimal_length id
  unfold idLine
  generalize decimal id = digits at hlen ⊢
  simp only [List.length_append, List.length_singleton]
  exact Nat.add_le_add_right (Nat.add_le_add_left hlen 7) 1

/-- The buffer is not flushed while more than the threshold is free. -/
theorem full_eq_false {out : Output} : out.full = false ↔ out.buffer.length + 20 < 8192 := by
  unfold Output.full bufsiz bufferFlushThold
  rw [decide_eq_false_iff_not]
  omega

/-- A full buffer is not empty. -/
theorem ne_nil_of_full {out : Output} (h : out.full = true) : out.buffer ≠ [] := by
  intro hnil
  have hlen : out.buffer.length = 0 := by rw [hnil, List.length_nil]
  have hfull : out.full = false := full_eq_false.mpr (by omega)
  rw [hfull] at h
  exact Bool.false_ne_true h

/-- How the file is held. -/
def fileMode (flushed : Bool) : Option Mode := if flushed then some .write else none

/-- Before the first flush the file is not locked, and from then on it is. -/
@[simp] theorem fileMode_false : fileMode false = none := rfl
@[simp] theorem fileMode_true : fileMode true = some .write := rfl

/-- The file is locked exactly when something has been flushed. -/
theorem fileMode_eq_none {flushed : Bool} : fileMode flushed = none ↔ flushed = false := by
  cases flushed <;> decide

/-- A text is written with nothing but `write()`s. -/
theorem safeWrite_ordered {post : Bool → _ → Prop} {text : List Char}
    (hpost : ∀ ok more, (∀ x ∈ more, x.1.writes = true) → (text ≠ [] → more ≠ []) →
      post ok (held, past ++ more)) :
    (safeWrite text).wp (ordered rank U) post (held, past) :=
  safeWriteIn_ordered text.length fun ok more hall hne =>
    hpost ok more hall fun htext => hne (fun h => htext (List.length_eq_zero_iff.mp h)) htext

/-- A flush: there is room for another line behind it. -/
theorem flush_ordered {a b c : Option Mode} {out : Output} {fail : Code Unit}
    {post : Option Output → _ → Prop} (h : Printing out.flushed past)
    (hfail : ∀ past', Wrote past past' → Quiet past' →
      fail.wp (ordered rank U) (fun _ => post none) (locks a b c (some .write), past'))
    (hsome : ∀ out' past', Wrote past past' → Printing out'.flushed past' →
      out'.buffer.length + 20 < 8192 →
      post (some out') (locks a b c (fileMode out'.flushed), past')) :
    (flush out fail).wp (ordered rank U) post (locks a b c (fileMode out.flushed), past) := by
  unfold flush
  rw [wp_ite]
  refine ⟨fun hfull => ?_, fun hfull => ?_⟩
  · have hwrite : (safeWrite out.buffer >>= fun written =>
        if !written then fail >>= fun _ => pure none else pure (some ⟨[], true⟩)).wp
          (ordered rank U) post (locks a b c (some .write), past) := by
      refine wp_bind _ _ (safeWrite_ordered fun ok more hmore hne => ?_)
      have hflush := h.flush hmore (hne (ne_nil_of_full hfull))
      rw [wp_ite]
      exact ⟨fun _ => wp_bind _ _ (hfail _ ⟨more, rfl, hmore⟩ hflush.quiet),
        fun _ => hsome ⟨[], true⟩ _ ⟨more, rfl, hmore⟩ hflush (by simp)⟩
    rw [wp_lockFile]
    refine ⟨fun hflushed => ?_, fun hflushed => ?_⟩
    · rw [hflushed]
      exact hwrite
    · rw [hflushed, ordered_lock, fileMode_false, update_file]
      refine ⟨?_, hwrite⟩
      simp [forall_lock, rank]
  · exact hsome out past ⟨[], by simp, nofun⟩ h
      (full_eq_false.mp (Bool.eq_false_of_not_eq_true hfull))

/-- The way out of both operations that print. -/
def Out (U : Past Action Answer → Prop) (m : Held Lock × Past Action Answer) : Prop :=
  (Free m.1 ↔ Tidy m.2) ∧ ¬ U m.2

/-- The end of both: `unlock` gives back the last lock. -/
theorem finish_ordered {a : Option Mode} {out : Output} {unlock : Code Unit} (hq : Quiet past)
    (hunlock : ∀ {post : Unit → _ → Prop} file past, post () (locks none none none file, past) →
      unlock.wp (ordered rank U) post (locks a none none file, past))
    (hU : ∀ past', Wrote past past' → ¬ U past') :
    (finish out unlock).wp (ordered rank U) (fun _ => Out U)
      (locks a none none (fileMode out.flushed), past) := by
  have hwrite : (safeWrite out.buffer >>= fun written =>
      if !written then unlock >>= fun _ => .unlock .file (pure 1)
      else .unlock .file (unlock >>= fun _ => pure 0)).wp
        (ordered rank U) (fun _ => Out U) (locks a none none (some .write), past) := by
    refine wp_bind _ _ (safeWrite_ordered fun ok more hmore _ => ?_)
    have hout : Out U (locks none none none none, past ++ more) := by
      refine ⟨iff_of_true (by simp) (Quiet.tidy ?_), hU _ ⟨more, rfl, hmore⟩⟩
      simp [hq, quiet_of_writes hmore]
    rw [wp_ite]
    refine ⟨fun _ => wp_bind _ _ (hunlock _ _ ?_), fun _ => ?_⟩
    · simpa using hout
    · simp only [wp_unlock, ordered_unlock, locks_file, update_file]
      exact ⟨(by simp), wp_bind _ _ (hunlock _ _ hout)⟩
  unfold finish
  rw [wp_lockFile]
  refine ⟨fun hflushed => ?_, fun hflushed => ?_⟩
  · rw [hflushed]
    exact hwrite
  · rw [hflushed, ordered_lock, fileMode_false, update_file]
    refine ⟨?_, hwrite⟩
    simp [forall_lock, rank]

/-! ## ems_show -/

/-- Where the loops over the seats of `event` are. -/
structure Showing (event : Event) (out : Output) (m : Held Lock × Past Action Answer) : Prop where
  held : m.1 = locks none none (some .read) (fileMode out.flushed)
  past : Printing out.flushed m.2
  load : Loaded event m.2

/-- What the loops end with: `none` behind a failure. -/
def Shown (event : Event) (room : Output → Prop) :
    Option Output → Held Lock × Past Action Answer → Prop
  | none, m => Out Overflows m
  | some out, m => Showing event out m ∧ room out

/-- Where there is a column the buffer never overflows: behind every seat there is room
for a newline and another seat. -/
theorem showRow_ordered {e i : Nat} {event : Event} (hcols : event.cols ≠ 0) (n : Nat) :
    ∀ {j out m}, Showing event out m → out.buffer.length + 20 ≤ 8192 →
      (showRow e event i j n out).wp (ordered rank Overflows)
        (Shown event fun out' => out'.buffer.length + 20 < 8192 ∨ n = 0 ∧ out' = out) m := by
  induction n with
  | zero => exact fun h _ => ⟨h, .inr ⟨rfl, rfl⟩⟩
  | succ n ih =>
    intro j out m h hroom
    obtain ⟨held, past⟩ := m
    obtain ⟨rfl, hpast, hload⟩ := h
    change Printing out.flushed past at hpast
    change Loaded event past at hload
    have hdef : ∀ {past}, Loaded event past → ¬ Overflows past := fun h => by
      rw [h.overflows_iff]
      exact fun hover => hcols hover.1
    simp [showRow]
    intro seat
    have hread := hpast.snoc (x := ⟨.readSeat e _, seat⟩) nofun rfl
    refine ⟨⟨?_, hdef (hload.append (by simp))⟩, fun _ => ?_, fun hfull => ?_⟩
    · have htidy := hread.tidy
      rw [List.append_assoc] at htidy
      rw [free_locks, fileMode_eq_none]
      exact Iff.trans (by simp) htidy.symm
    · have hadded := hread.snoc (x := ⟨.snprintf, true⟩) (by simp) rfl
      rw [List.append_assoc] at hadded
      have hload' : Loaded event (past ++ [⟨.readSeat e _, seat⟩, ⟨.snprintf, true⟩]) :=
        hload.append (by simp)
      refine wp_bind _ _ (flush_ordered hadded (fun past' hw hq => ?_) fun out' past' hw hp hr => ?_)
      · simp
        exact ⟨iff_of_true (by simp) hq.tidy, hdef (hload'.wrote hw)⟩
      · refine wp_mono (fun r m hm => ?_) (ih ⟨rfl, hp, hload'.wrote hw⟩ (Nat.le_of_lt hr))
        cases r with
        | none => exact hm
        | some out'' =>
          refine ⟨hm.1, ?_⟩
          rcases hm.2 with hlt | ⟨-, rfl⟩
          · exact hlt
          · exact hr
    · have := decimal_length seat
      unfold bufsiz at hfull
      omega

/-- The rows: without columns the buffer gets one newline for each. -/
theorem showRows_ordered {e : Nat} {event : Event} (n : Nat) :
    ∀ {i out m}, Showing event out m → i + n = event.rows.toNat + 1 → 1 ≤ i →
      (event.cols ≠ 0 → out.buffer.length + 20 ≤ 8192) →
      (event.cols = 0 → out.buffer.length + 1 = i ∧ i ≤ bufsiz + 1) →
      (showRows e event i n out).wp (ordered rank Overflows)
        (Shown event fun _ => event.cols = 0 → event.rows.toNat ≤ bufsiz) m := by
  induction n with
  | zero =>
    intro i out m h hi _ _ hzero
    refine ⟨h, fun hcols => ?_⟩
    have := (hzero hcols).2
    omega
  | succ n ih =>
    intro i out m h hi hi1 hroom hzero
    simp only [showRows]
    by_cases hcols : event.cols = 0
    · -- no seat in this row
      obtain ⟨hlen, hle⟩ := hzero hcols
      rw [show event.cols.toNat = 0 by rw [hcols]; rfl]
      simp only [showRow, pure_bind, wp_putChar]
      refine ⟨fun hlt => ?_, fun hge => ?_⟩
      · refine ih (i := i + 1) ⟨h.held, h.past, h.load⟩ (by omega) (by omega)
          (fun hne => absurd hcols hne) fun _ => ?_
        rw [List.length_append, List.length_singleton]
        omega
      · show Overflows m.2
        exact h.load.overflows_iff.mpr ⟨hcols, by omega⟩
    · refine wp_bind _ _ (wp_mono (fun r m' hm => ?_) (showRow_ordered hcols _ h (hroom hcols)))
      cases r with
      | none => exact hm
      | some out' =>
        have hlt : out'.buffer.length + 20 < 8192 := by
          rcases hm.2 with hlt | ⟨hno, -⟩
          · exact hlt
          · exact absurd (UInt64.toNat_inj.mp (hno.trans rfl)) hcols
        simp
        refine ⟨fun _ => ?_, fun hge => ?_⟩
        · refine ih (i := i + 1) ⟨hm.1.held, hm.1.past, hm.1.load⟩ (by omega) (by omega)
            (fun _ => ?_) fun hzero => absurd hzero hcols
          simp
          omega
        · unfold bufsiz at hge
          omega

/-- Before the event is known nothing is undefined. -/
theorem not_overflows (h : ∀ e event, ⟨.load e, event⟩ ∉ past) : ¬ Overflows past := by
  rintro ⟨e, event, hx, -⟩
  exact h e event hx

/-- `ems_show` gives back what it has locked exactly when no `snprintf` fails behind a `write()`.
-/
theorem show_ordered (id : UInt32) :
    Ordered rank Overflows Tidy (emsShow id) (fun _ => none) [] := by
  have hout : ∀ past : Past Action Answer, Quiet past → (∀ e event, ⟨.load e, event⟩ ∉ past) →
      Out Overflows (locks none none none none, past) := fun past hq hno =>
    ⟨iff_of_true (by simp) hq.tidy, not_overflows hno⟩
  show (emsShow id).wp (ordered rank Overflows) (fun _ => Out Overflows) _
  unfold emsShow
  rw [locks_none]
  simp [forall_lock, rank]
  refine ⟨hout _ (by simp) (by simp), fun found => ?_⟩
  cases found with
  | none => exact hout _ (by simp) (by simp)
  | some e =>
    simp [showEvent, forall_lock, rank]
    intro event
    refine wp_bind _ _ (wp_mono (fun r m hm => ?_) (showRows_ordered event.rows.toNat
      ⟨rfl, ⟨by simp, by simp⟩, ?_⟩ (Nat.add_comm _ _) (Nat.le_refl _) (by simp)
      (fun _ => ⟨rfl, Nat.le_add_left _ _⟩)))
    · cases r with
      | none => exact hm
      | some out =>
        obtain ⟨⟨hheld, hpast, hload⟩, hrows⟩ := hm
        obtain ⟨held, past⟩ := m
        dsimp only at hheld hpast hload
        subst hheld
        simp
        refine finish_ordered hpast.quiet (fun _ _ hpost => hpost) fun past' hw => ?_
        rw [(hload.wrote hw).overflows_iff]
        exact fun hover => absurd hover.2 (Nat.not_lt.mpr (hrows hover.1))
    · intro event'
      simp [eq_comm]

/-! ## ems_list_events -/

/-- A failed flush has given back the locks, the end of the loop has not. -/
theorem listNodes_ordered (n : Nat) : ∀ {i out past}, Printing out.flushed past →
    out.buffer.length + 20 < 8192 →
    (listNodes i n out).wp (ordered rank U)
      (fun r m => match r with
        | none => Free m.1 ↔ Tidy m.2
        | some out' => m.1 = locks (some .read) none none (fileMode out'.flushed) ∧ Quiet m.2)
      (locks (some .read) none none (fileMode out.flushed), past) := by
  induction n with
  | zero => exact fun h _ => ⟨rfl, h.quiet⟩
  | succ n ih =>
    intro i out past h hroom
    simp [listNodes]
    intro id
    have hread := h.snoc (x := ⟨.nodeId i, id⟩) (by simp) rfl
    refine ⟨?_, fun _ => ?_, fun hfull => ?_⟩
    · have htidy := hread.tidy
      rw [List.append_assoc] at htidy
      rw [fileMode_eq_none]
      exact htidy.symm
    · have hadded := hread.snoc (x := ⟨.snprintf, true⟩) (by simp) rfl
      rw [List.append_assoc] at hadded
      refine wp_bind _ _ (flush_ordered hadded (fun past' _ hq => ?_) fun out' past' _ hp hr => ?_)
      · simp [hq.tidy]
      · exact ih hp hr
    · have := idLine_length id
      unfold bufsiz at hfull
      omega

/-- `ems_list_events` gives back what it has locked exactly when no `snprintf` fails behind a
`write()`. -/
theorem list_ordered :
    Ordered rank (fun _ => False) Tidy emsListEvents (fun _ => none) [] := by
  show emsListEvents.wp (ordered rank fun _ => False) (fun _ => Out fun _ => False) _
  unfold emsListEvents
  rw [locks_none]
  simp [forall_lock, rank]
  have hunlock : ∀ {post : Unit → _ → Prop} file past, post () (locks none none none file, past) →
      (release .list : Code Unit).wp (ordered rank fun _ => False) post
        (locks (some .read) none none file, past) := fun file past hpost => by simpa using hpost
  refine ⟨⟨iff_of_true (by simp) (Quiet.tidy (by simp)), id⟩, fun n => ⟨fun _ => ?_, fun _ => ?_⟩⟩
  · exact finish_ordered (by simp) hunlock fun _ _ => id
  · refine wp_bind _ _ (wp_mono (fun r m hm => ?_)
      (listNodes_ordered n ⟨by simp, by simp⟩ (by simp)))
    cases r with
    | none => exact ⟨hm, id⟩
    | some out =>
      obtain ⟨held, past⟩ := m
      obtain ⟨rfl, hq⟩ := hm
      exact finish_ordered hq hunlock fun _ _ => id

end Order

/-- **The order** is kept by all four. -/
theorem code_ordered (c : Op) : Ordered rank c.Undefined Tidy c.code (fun _ => none) [] := by
  cases c with
  | create id rows cols => exact create_ordered id rows cols
  | reserve q => exact reserve_ordered q
  | showEvent id => exact show_ordered id
  | listEvents => exact list_ordered

end Ems.Jobs.Programs
