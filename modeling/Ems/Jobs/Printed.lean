import Ems.Jobs.Locking

/-!
# What a call prints

`matrixText` and `listText` are what `SHOW` and `LIST` are for. `prints` looks at one call
among others: what it reads agrees with one list (`Watch.list`), that of the moment when it
took the lock that protects what it reads, and what it writes is a beginning of the text
of that list, the whole of it when the call succeeds (`code_prints`).

The other threads appear in `prints` only through what they may do to the list while the
call holds no lock of it: new events come at the end, and no event changes its id or its
dimensions (`Grows`).
-/

namespace Ems.Jobs

/-! ## A list that grows -/

/-- What of an event never changes. -/
def Event.shape (event : Event) : UInt32 × UInt64 × UInt64 := (event.id, event.rows, event.cols)

/-- Events have been added at the end, and seats have changed. -/
def Grows (list list' : EventList) : Prop := list.map Event.shape <+: list'.map Event.shape

section Grows

variable {list list' list'' : EventList} {id : UInt32} {e : Nat}

/-- A list has grown by nothing. -/
theorem Grows.refl (list : EventList) : Grows list list := List.prefix_refl _

/-- And then it has grown again. -/
theorem Grows.trans (h : Grows list list') (h' : Grows list' list'') : Grows list list'' :=
  List.IsPrefix.trans h h'

/-- Its events keep their ids and dimensions. -/
theorem Grows.getElem? (h : Grows list list') {event : Event} (he : list[e]? = some event) :
    ∃ event', list'[e]? = some event' ∧ event'.shape = event.shape := by
  obtain ⟨more, hmore⟩ := h
  have hshape : (list'.map Event.shape)[e]? = some event.shape := by
    have hold : (list.map Event.shape)[e]? = some event.shape := by
      rw [List.getElem?_map, he]
      rfl
    rw [← hmore, List.getElem?_append_left (List.getElem?_eq_some_iff.mp hold).1, hold]
  rw [List.getElem?_map] at hshape
  exact Option.map_eq_some_iff.mp hshape

/-- Looking up an id is about the ids only. -/
theorem getEvent_shape (list : EventList) (id : UInt32) :
    getEvent list id = (list.map Event.shape).findIdx? fun shape => shape.1 == id := by
  unfold getEvent
  rw [List.findIdx?_map]
  rfl

/-- An id keeps its place. -/
theorem Grows.getEvent (h : Grows list list') (he : getEvent list id = some e) :
    Jobs.getEvent list' id = some e := by
  rw [getEvent_shape] at he ⊢
  obtain ⟨more, hmore⟩ := h
  rw [← hmore, List.findIdx?_append, he]
  rfl

/-- While nothing is added the ids are the same. -/
theorem Grows.map_eq (h : Grows list list') (hlen : list'.length = list.length) :
    list'.map Event.shape = list.map Event.shape :=
  (List.IsPrefix.eq_of_length h (by rw [List.length_map, List.length_map, hlen])).symm

end Grows

/-! ## The texts -/

namespace Programs

open Conc Conc.Program
open Server (Request)
open Client (decimal idLine)

/-- The seat in row `i` and column `j`, both from 1. -/
def seatAt (event : Event) (i j : Nat) : UInt32 :=
  getSeat event (seatIndex event (UInt64.ofNat i) (UInt64.ofNat j)).toNat

def rowText (event : Event) (i : Nat) : List Char :=
  (List.range' 1 event.cols.toNat).flatMap (fun j => seatText event j (seatAt event i j)) ++ ['\n']

/-- What `SHOW` is for. -/
def matrixText (event : Event) : List Char :=
  (List.range' 1 event.rows.toNat).flatMap (rowText event)

/-- What `LIST` is for. -/
def listText (list : EventList) : List Char :=
  if list = [] then "No events\n".toList else list.flatMap fun event => idLine event.id

/-- The operation prints. -/
def Op.prints : Op → Bool
  | .showEvent _ => true
  | .listEvents => true
  | _ => false

/-- The lock of what it prints. -/
def Op.source : Op → Lock
  | .showEvent _ => .seat
  | _ => .list

/-- What it prints from this list. -/
def Op.text : Op → EventList → List Char
  | .showEvent eventId, list => ((getEvent list eventId).bind (list[·]?)).elim [] matrixText
  | .listEvents, list => listText list
  | _, _ => []

/-- What a SHOW of an event is to print. -/
theorem text_show {list : EventList} {id : UInt32} {e : Nat} {event : Event}
    (hfound : getEvent list id = some e) (he : list[e]? = some event) :
    (Op.showEvent id).text list = matrixText event := by
  unfold Op.text
  simp only [hfound, Option.bind_some, he, Option.elim_some]

/-- Every seat of the event has a cell. -/
def Whole (event : Event) : Prop :=
  ∀ i, 1 ≤ i → i ≤ event.rows.toNat → ∀ j, 1 ≤ j → j ≤ event.cols.toNat →
    (seatIndex event (UInt64.ofNat i) (UInt64.ofNat j)).toNat < event.data.length

/-- What there has to be in the list for the text to be printed. -/
def Op.Readable : Op → EventList → Prop
  | .showEvent eventId, list => ∃ e event, getEvent list eventId = some e ∧
      list[e]? = some event ∧ Whole event
  | _, _ => True

/-! ## One call among others -/

/-- One call: its locks, the list as it was when it took the lock of what it reads, that
lock, what it has written, and whether it has given back the file. -/
structure Watch where
  held : Held Lock
  list : EventList
  reader : Option (Lock × Mode)
  written : List Char
  ended : Bool

/-- A lock call: with the lock of what it reads the call sees the list as it is now. -/
@[simp] def printsLock (mode : Mode) (Q : Watch → Prop) (m : Watch) : Lock → Prop
  | .list => m.written = [] ∧ m.held .seat = none ∧ ∀ list, Grows m.list list →
      Q { m with
        held := Function.update m.held .list (some mode), list := list, reader := some (.list, mode) }
  | .event => Q { m with held := Function.update m.held .event (some mode) }
  | .seat => m.written = [] ∧ m.held .list = none ∧ ∀ list, Grows m.list list →
      Q { m with
        held := Function.update m.held .seat (some mode), list := list, reader := some (.seat, mode) }
  | .file => mode = .write ∧ m.written = [] ∧ m.ended = false ∧ (m.held .file = none →
      Q { m with held := Function.update m.held .file (some mode) })

/-- Any other step. Library calls fail only if `faults`, except for a `snprintf` while the
call does not have the file. -/
@[simp] def printsAct (faults : Prop) (c : Op) (m : Watch) :
    (e : Action) → (Answer e → Watch → Prop) → Prop
  | .initialized, Q => ∀ r, Q r m
  | .lookup eventId, Q => m.held .list = some .read ∧ Q (getEvent m.list eventId) m
  | .load e, Q => ∃ event : Event, m.list[e]? = some event ∧
      ∀ event' : Event, event'.shape = event.shape → Q event' m
  | .malloc, Q => ∀ r, Q r m
  | .append _, Q => m.held .list = some .write ∧ ∀ r, Q r m
  | .bump _, Q => ∀ r, Q r m
  | .undo _, Q => Q () m
  | .readSeat e i, Q => ∀ seat, (m.held .seat = some .read → ∀ event : Event,
      m.list[e]? = some event → event.data[i]? = some seat) → Q seat m
  | .writeSeat _ _ _, Q => m.held .seat = some .write ∧ Q () m
  | .nodes, Q => m.held .list = some .read ∧ Q m.list.length m
  | .nodeId i, Q => m.held .list = some .read ∧ ∀ event : Event, m.list[i]? = some event →
      Q event.id m
  | .snprintf, Q => Q true m ∧ (faults ∨ m.held .file = none → Q false m)
  | .write text, Q => m.held .file ≠ none ∧ m.reader = some (c.source, .read) ∧
      m.written ++ text <+: c.text m.list ∧
      (∀ i, Q (some i) { m with written := m.written ++ text.take (i + 1) }) ∧ (faults → Q none m)

/-- The steps of the call `c`. -/
def prints (faults : Prop) (c : Op) : Spec Lock Action Answer Watch where
  lock l mode Q m := printsLock mode Q m l
  unlock l Q m := m.held l ≠ none ∧
    Q { m with held := Function.update m.held l none, ended := m.ended || l = .file }
  act e Q m := printsAct faults c m e Q
  undefined _ := True
  lock_mono := by
    intro l mode Q Q' m hQ h
    cases l with
    | event => exact hQ _ h
    | file => exact ⟨h.1, h.2.1, h.2.2.1, fun hfree => hQ _ (h.2.2.2 hfree)⟩
    | _ => exact ⟨h.1, h.2.1, fun list hlist => hQ _ (h.2.2 list hlist)⟩
  unlock_mono hQ h := ⟨h.1, hQ _ h.2⟩
  act_mono := by
    intro e Q Q' m hQ h
    cases e with
    | initialized => exact fun r => hQ _ _ (h r)
    | lookup => exact ⟨h.1, hQ _ _ h.2⟩
    | load =>
      obtain ⟨event, he, hall⟩ := h
      exact ⟨event, he, fun event' hs => hQ _ _ (hall event' hs)⟩
    | malloc => exact fun r => hQ _ _ (h r)
    | append => exact ⟨h.1, fun r => hQ _ _ (h.2 r)⟩
    | bump => exact fun r => hQ _ _ (h r)
    | undo => exact hQ _ _ h
    | readSeat => exact fun seat hseat => hQ _ _ (h seat hseat)
    | writeSeat => exact ⟨h.1, hQ _ _ h.2⟩
    | nodes => exact ⟨h.1, hQ _ _ h.2⟩
    | nodeId => exact ⟨h.1, fun event he => hQ _ _ (h.2 event he)⟩
    | snprintf => exact ⟨hQ _ _ h.1, fun hf => hQ _ _ (h.2 hf)⟩
    | write =>
      exact ⟨h.1, h.2.1, h.2.2.1, fun i => hQ _ _ (h.2.2.2.1 i), fun hf => hQ _ _ (h.2.2.2.2 hf)⟩

/-- What is so when the call `c` returns `ret`. -/
structure Printed (faults : Prop) (c : Op) (ret : Nat) (m : Watch) : Prop where
  free : ∀ l, l ≠ .file ∨ ¬ faults → m.held l = none
  success : c.prints = true → ret = 0 →
    m.written = c.text m.list ∧ m.ended = true ∧ c.Readable m.list ∧
      m.reader = some (c.source, .read)
  failure : ¬ faults → c.prints = false ∨ ret ≠ 0 → m.ended = false

section Rules

variable {faults : Prop} {c : Op} {m : Watch}

/-- A lock, and what the call knows of the list from then on. -/
@[simp] theorem prints_lock {l : Lock} {mode : Mode} {Q : Watch → Prop} :
    (prints faults c).lock l mode Q m = printsLock mode Q m l := rfl

/-- Giving back the file ends the output. -/
@[simp] theorem prints_unlock {l : Lock} {Q : Watch → Prop} :
    (prints faults c).unlock l Q m ↔ m.held l ≠ none ∧
      Q { m with held := Function.update m.held l none, ended := m.ended || l = .file } := Iff.rfl

/-- An action, and what it writes. -/
@[simp] theorem prints_act {e : Action} {Q : Answer e → Watch → Prop} :
    (prints faults c).act e Q m = printsAct faults c m e Q := rfl

/-- Nothing is said of undefined steps. -/
@[simp] theorem prints_undefined : (prints faults c).undefined m := trivial

end Rules

/-- `ems_create` prints nothing. -/
theorem create_prints {faults : Prop} {id : UInt32} {rows cols : UInt64} {list : EventList}
    {reader : Option (Lock × Mode)} {file : Option Mode} (hfile : ¬ faults → file = none) :
    (emsCreate id rows cols).wp (prints faults (.create id rows cols))
      (Printed faults (.create id rows cols)) ⟨locks none none none file, list, reader, [], false⟩ := by
  have hdone : ∀ list reader ret, Printed faults (.create id rows cols) ret
      ⟨locks none none none file, list, reader, [], false⟩ := fun list reader ret =>
    ⟨fun l hl => by cases l <;> simp_all, nofun, fun _ _ => rfl⟩
  unfold emsCreate
  simp [hdone]

section Loops

variable {faults : Prop} {c : Op} {m : Watch} {a b d f : Option Mode}

/-- Marking seats prints nothing. -/
theorem markSeats_prints {e : Nat} {q : Request} {r : UInt32} {post : Nat → Watch → Prop}
    {event : Event} (he : m.list[e]? = some event) (hseat : m.held .seat = some .write)
    (hpost : ∀ i, post i m) (n : Nat) :
    ∀ {i}, (markSeats e q r i n).wp (prints faults c) post m := by
  induction n with
  | zero => exact hpost _
  | succ n ih =>
    intro i
    simp [markSeats, he, hseat, hpost]
    exact fun _ _ _ => ih

/-- Undoing seats prints nothing. -/
theorem clearSeats_prints {e : Nat} {q : Request} {post : Unit → Watch → Prop}
    {event : Event} (he : m.list[e]? = some event) (hseat : m.held .seat = some .write)
    (hpost : post () m) (n : Nat) :
    ∀ {j}, (clearSeats e q j n).wp (prints faults c) post m := by
  induction n with
  | zero => exact hpost
  | succ n ih =>
    intro j
    simp [clearSeats, he, hseat]
    exact fun _ _ => ih

/-- `text` is written, and what of it is left when a `write` fails. -/
theorem safeWriteIn_prints {post : Bool → Watch → Prop} {rest : List Char} (n : Nat) :
    ∀ {text m}, text.length ≤ n → m.held .file ≠ none → m.reader = some (c.source, .read) →
      m.written ++ text ++ rest = c.text m.list →
      post true { m with written := m.written ++ text } →
      (faults → ∀ written, post false { m with written := written }) →
      (safeWriteIn n text).wp (prints faults c) post m := by
  induction n with
  | zero =>
    intro text m hn _ _ _ hok _
    cases text with
    | nil =>
      rw [List.append_nil] at hok
      exact hok
    | cons => cases hn
  | succ n ih =>
    intro text m hn hfile hreader htext hok hfail
    cases text with
    | nil =>
      rw [List.append_nil] at hok
      exact hok
    | cons d text =>
      simp only [safeWriteIn, perform_bind, wp_act, prints_act, printsAct]
      refine ⟨hfile, hreader, ⟨rest, htext⟩, fun i => ?_, fun hf => hfail hf m.written⟩
      -- a `write` takes the front, and the induction hypothesis is about what is left
      have hsplit : (d :: text).take (i + 1) ++ (d :: text).drop (i + 1) = d :: text :=
        List.take_append_drop _ _
      refine ih ?_ hfile hreader ?_ ?_ fun hf written => hfail hf written
      · rw [List.length_drop]
        simp only [List.length_cons] at hn ⊢
        omega
      · rw [← htext, List.append_assoc, List.append_assoc, List.append_assoc,
          ← List.append_assoc (List.take _ _), hsplit]
      · rw [List.append_assoc, hsplit]
        exact hok

/-- A text is written under the lock of the file, and is next. -/
theorem safeWrite_prints {post : Bool → Watch → Prop} {text rest : List Char}
    (hfile : m.held .file ≠ none) (hreader : m.reader = some (c.source, .read))
    (htext : m.written ++ text ++ rest = c.text m.list)
    (hok : post true { m with written := m.written ++ text })
    (hfail : faults → ∀ written, post false { m with written := written }) :
    (safeWrite text).wp (prints faults c) post m :=
  safeWriteIn_prints text.length (Nat.le_refl _) hfile hreader htext hok hfail

/-- A call that prints, with `rest` still to come: what is not written yet is in the buffer,
and nothing is written before the first flush. -/
structure Ahead (c : Op) (out : Output) (rest : List Char) (m : Watch) : Prop where
  text : m.written ++ out.buffer ++ rest = c.text m.list
  reader : m.reader = some (c.source, .read)
  ended : m.ended = false
  fresh : out.flushed = false → m.written = []
  file : out.flushed = true → m.held .file ≠ none

/-- The file is locked for writing what is in the buffer. -/
theorem lockFile_prints {out : Output} {rest : List Char} {β : Type} {next : Unit → Code β}
    {post : β → Watch → Prop} (hheld : m.held = locks a b d f) (h : Ahead c out rest m)
    (hnext : ∀ f, f ≠ none →
      (next ()).wp (prints faults c) post { m with held := locks a b d f }) :
    (lockFile out >>= next).wp (prints faults c) post m := by
  rw [wp_lockFile]
  refine ⟨fun hflushed => ?_, fun hflushed => ?_⟩
  · have hfile := h.file hflushed
    rw [hheld] at hfile
    have hsame : { m with held := locks a b d f } = m := by rw [← hheld]
    rw [← hsame]
    exact hnext f hfile
  · refine ⟨rfl, h.fresh hflushed, h.ended, fun _ => ?_⟩
    rw [hheld, update_file]
    exact hnext _ nofun

/-- What is in the buffer is next. -/
theorem flush_prints {out : Output} {rest : List Char} {fail : Code Unit}
    {post : Option Output → Watch → Prop} (hheld : m.held = locks a b d f)
    (h : Ahead c out rest m)
    (hfail : faults → ∀ f written, f ≠ none → fail.wp (prints faults c) (fun _ => post none)
      { m with held := locks a b d f, written := written })
    (hsome : ∀ out' f written, Ahead c out' rest
      { m with held := locks a b d f, written := written } →
      post (some out') { m with held := locks a b d f, written := written }) :
    (flush out fail).wp (prints faults c) post m := by
  unfold flush
  rw [wp_ite]
  refine ⟨fun _ => lockFile_prints hheld h fun f' hfile => ?_, fun _ => ?_⟩
  · refine wp_bind _ _ (safeWrite_prints hfile h.reader h.text ?_ fun hf written => ?_)
    · refine hsome ⟨[], true⟩ f' _ ⟨?_, h.reader, h.ended, nofun, fun _ => hfile⟩
      rw [List.append_nil]
      exact h.text
    · exact wp_bind _ _ (hfail hf f' written hfile)
  · have hsame : { m with held := locks a b d f, written := m.written } = m := by rw [← hheld]
    have hdone := hsome out f m.written
    rw [hsame] at hdone
    exact hdone h

/-- A failure, with all locks but that of the file given back. -/
theorem printed_failure {list : EventList} {reader : Option (Lock × Mode)} {written : List Char}
    {ended : Bool}
    (hfile : ¬ faults → f = none) (hover : ¬ faults → ended = false) :
    Printed faults c 1 ⟨locks none none none f, list, reader, written, ended⟩ where
  free l hl := by
    cases l with
    | file => exact hfile (hl.resolve_left fun h => h rfl)
    | _ => rfl
  success _ h := absurd h nofun
  failure hf _ := hover hf

/-- What is left to do behind the loops; `unlock` gives back the last lock but the file. -/
theorem finish_prints {out : Output} {unlock : Code Unit} (hc : c.prints = true)
    (hread : c.Readable m.list) (hheld : m.held = locks a none none f) (h : Ahead c out [] m)
    (hunlock : ∀ {post : Unit → Watch → Prop} f written ended,
      post () ⟨locks none none none f, m.list, m.reader, written, ended⟩ →
      unlock.wp (prints faults c) post ⟨locks a none none f, m.list, m.reader, written, ended⟩) :
    (finish out unlock).wp (prints faults c) (Printed faults c) m := by
  refine lockFile_prints hheld h fun f hfile => ?_
  refine wp_bind _ _ (safeWrite_prints hfile h.reader h.text ?_ fun hf written => ?_)
  · simp [hfile]
    refine wp_bind _ _ (hunlock _ _ _ ?_)
    have htext := h.text
    rw [List.append_nil] at htext
    refine ⟨fun l _ => by cases l <;> rfl, fun _ _ => ⟨htext, rfl, hread, h.reader⟩, fun _ hno => ?_⟩
    rcases hno with hno | hno
    · exact absurd (hc.symm.trans hno) nofun
    · exact absurd rfl hno
  · refine wp_bind _ _ (hunlock _ _ _ ?_)
    simp [hfile]
    exact printed_failure (fun hno => absurd hf hno) fun hno => absurd hf hno

end Loops

/-- `ems_reserve` prints nothing. -/
theorem reserve_prints {faults : Prop} {q : Request} {list : EventList}
    {reader : Option (Lock × Mode)} {file : Option Mode} (hfile : ¬ faults → file = none) :
    (emsReserve q).wp (prints faults (.reserve q))
      (Printed faults (.reserve q)) ⟨locks none none none file, list, reader, [], false⟩ := by
  have hdone : ∀ list reader ret, Printed faults (.reserve q) ret
      ⟨locks none none none file, list, reader, [], false⟩ := fun list reader ret =>
    ⟨fun l hl => by cases l <;> simp_all, nofun, fun _ _ => rfl⟩
  unfold emsReserve
  simp [hdone]
  intro list' _
  cases hfound : getEvent list' q.eventId with
  | none => exact hdone _ _ _
  | some e =>
    simp [reserveEvent]
    intro r list'' hgrow
    obtain ⟨event, he, -⟩ := hgrow.getElem? (List.getElem?_eq_getElem (getEvent_lt hfound))
    refine wp_bind _ _ (markSeats_prints he rfl (fun i => ?_) _)
    simp [hdone]
    exact fun _ => wp_bind _ _ (clearSeats_prints he rfl (by simp [hdone]) _)

/-! ## ems_show -/

/-- `ems_show` in its loops: the list it reads, and its locks. -/
structure Reads (list : EventList) (m : Watch) : Prop where
  list_eq : m.list = list
  held : ∃ f, m.held = locks none none (some .read) f

/-- What the loops that print end with: `none` behind a failure. -/
def Passed (faults : Prop) (c : Op) (I : Watch → Prop) (rest : List Char) :
    Option Output → Watch → Prop
  | none, m => Printed faults c 1 m
  | some out, m => I m ∧ Ahead c out rest m

section Show

variable {faults : Prop} {c : Op} {m : Watch} {list : EventList} {e : Nat} {base event : Event}
  {rest : List Char}

/-- A look at a seat. -/
theorem Reads.seat_eq (h : Reads list m) (hbase : list[e]? = some base) {i : Nat} {seat : UInt32}
    (hseat : m.held .seat = some .read → ∀ event : Event,
      m.list[e]? = some event → event.data[i]? = some seat) :
    seat = getSeat base i ∧ i < base.data.length := by
  obtain ⟨f, hf⟩ := h.held
  have hi := hseat (by rw [hf]; rfl) base (by rw [h.list_eq]; exact hbase)
  unfold getSeat
  rw [List.getD_eq_getElem?_getD, hi]
  exact ⟨rfl, (List.getElem?_eq_some_iff.mp hi).1⟩

/-- The seats of row `i` from column `j` on, `n` of them, have cells. -/
def RowWhole (event : Event) (i j n : Nat) : Prop :=
  ∀ k, j ≤ k → k < j + n →
    (seatIndex event (UInt64.ofNat i) (UInt64.ofNat k)).toNat < event.data.length

/-- A row goes through the buffer. -/
theorem showRow_prints {i : Nat} (hbase : list[e]? = some base) (hcols : event.cols = base.cols)
    (n : Nat) : ∀ {j out m}, Reads list m →
      Ahead c out ((List.range' j n).flatMap (fun j => seatText base j (seatAt base i j)) ++ rest) m →
      (showRow e event i j n out).wp (prints faults c)
        (Passed faults c (fun m => Reads list m ∧ RowWhole base i j n) rest) m := by
  induction n with
  | zero => exact fun hr h => ⟨⟨hr, fun k hle hlt => absurd hlt (Nat.not_lt.mpr hle)⟩, h⟩
  | succ n ih =>
    intro j out m hr h
    simp [showRow]
    intro seat hseat
    obtain ⟨f, hheld⟩ := hr.held
    obtain ⟨hvalue, hcell⟩ := hr.seat_eq hbase hseat
    -- the event may have changed since, but not its columns
    have hindex : seatIndex event (UInt64.ofNat i) (UInt64.ofNat j) =
        seatIndex base (UInt64.ofNat i) (UInt64.ofNat j) := by
      unfold seatIndex
      rw [hcols]
    rw [hindex] at hvalue hcell
    have htext : seatText event j seat = seatText base j (seatAt base i j) := by
      rw [hvalue]
      unfold seatText seatAt
      rw [hcols]
    refine ⟨fun _ => ?_, fun hf => ⟨by simp [hheld], ?_⟩⟩
    · have hmore : Ahead c { out with buffer := out.buffer ++ seatText event j seat }
          ((List.range' (j + 1) n).flatMap (fun j => seatText base j (seatAt base i j)) ++ rest) m := by
        refine ⟨?_, h.reader, h.ended, h.fresh, h.file⟩
        rw [← h.text, List.range'_succ, List.flatMap_cons, ← htext]
        simp only [List.append_assoc]
      refine wp_bind _ _ (flush_prints hheld hmore (fun hf f written hfile => ?_)
        fun out' f written h' => wp_mono (fun r m' hm => ?_) (ih ⟨hr.list_eq, f, rfl⟩ h'))
      · simp [hfile]
        exact printed_failure (fun hno => absurd hf hno) fun hno => absurd hf hno
      · cases r with
        | none => exact hm
        | some out'' =>
          refine ⟨⟨hm.1.1, fun k hle hlt => ?_⟩, hm.2⟩
          rcases Nat.eq_or_lt_of_le hle with rfl | hgt
          · exact hcell
          · exact hm.1.2 k hgt (by omega)
    · rw [hheld] at hf
      simp [hheld, h.ended]
      exact printed_failure (fun hno => hf.resolve_left hno) fun _ => rfl

/-- All rows do. -/
theorem showRows_prints (hbase : list[e]? = some base) (hcols : event.cols = base.cols)
    (n : Nat) : ∀ {i out m}, Reads list m →
      Ahead c out ((List.range' i n).flatMap (rowText base) ++ rest) m →
      (showRows e event i n out).wp (prints faults c) (Passed faults c (fun m => Reads list m ∧
        ∀ k, i ≤ k → k < i + n → RowWhole base k 1 base.cols.toNat) rest) m := by
  induction n with
  | zero => exact fun hr h => ⟨⟨hr, fun k hle hlt => absurd hlt (Nat.not_lt.mpr hle)⟩, h⟩
  | succ n ih =>
    intro i out m hr h
    -- the row, its newline, and the rows behind it
    have hrow : Ahead c out ((List.range' 1 event.cols.toNat).flatMap
        (fun j => seatText base j (seatAt base i j)) ++
          (['\n'] ++ ((List.range' (i + 1) n).flatMap (rowText base) ++ rest))) m := by
      refine ⟨?_, h.reader, h.ended, h.fresh, h.file⟩
      rw [← h.text, List.range'_succ, List.flatMap_cons, rowText, hcols]
      simp only [List.append_assoc]
    refine wp_bind _ _ (wp_mono (fun r m' hm => ?_) (showRow_prints hbase hcols _ hr hrow))
    cases r with
    | none => exact hm
    | some out' =>
      obtain ⟨⟨hr', hwhole⟩, h'⟩ := hm
      have hnext : Ahead c { out' with buffer := out'.buffer ++ ['\n'] }
          ((List.range' (i + 1) n).flatMap (rowText base) ++ rest) m' := by
        refine ⟨?_, h'.reader, h'.ended, h'.fresh, h'.file⟩
        have := h'.text
        simpa only [List.append_assoc] using this
      simp
      refine fun _ => wp_mono (fun r m'' hm => ?_) (ih hr' hnext)
      cases r with
      | none => exact hm
      | some out'' =>
        refine ⟨⟨hm.1.1, fun k hle hlt => ?_⟩, hm.2⟩
        rcases Nat.eq_or_lt_of_le hle with rfl | hgt
        · rwa [hcols] at hwhole
        · exact hm.1.2 k hgt (by omega)

end Show

/-- `ems_show` prints the matrix, in one piece. -/
theorem show_prints {faults : Prop} {id : UInt32} {list : EventList}
    {reader : Option (Lock × Mode)} {file : Option Mode} (hfile : ¬ faults → file = none) :
    (emsShow id).wp (prints faults (.showEvent id))
      (Printed faults (.showEvent id)) ⟨locks none none none file, list, reader, [], false⟩ := by
  have hdone : ∀ list reader, Printed faults (.showEvent id) 1
      ⟨locks none none none file, list, reader, [], false⟩ := fun list reader =>
    printed_failure hfile fun _ => rfl
  unfold emsShow
  simp [hdone]
  intro list' _
  cases hfound : getEvent list' id with
  | none => exact hdone _ _
  | some e =>
    simp [showEvent]
    intro list'' hgrow
    -- the list has grown at most, so the event is still where it was found
    obtain ⟨base, hbase, -⟩ := hgrow.getElem? (List.getElem?_eq_getElem (getEvent_lt hfound))
    refine ⟨base, hbase, fun event hshape => ?_⟩
    have hcols : event.cols = base.cols := congrArg (·.2.2) hshape
    have hrows : event.rows = base.rows := congrArg (·.2.1) hshape
    refine wp_bind _ _ (wp_mono (fun r m hm => ?_) (showRows_prints hbase hcols _ ⟨rfl, file, rfl⟩
      (show Ahead _ _ (_ ++ []) _ from ⟨?_, rfl, rfl, fun _ => rfl, (by simp)⟩)))
    · cases r with
      | none => exact hm
      | some out =>
        obtain ⟨⟨⟨hlist, f, hheld⟩, hwhole⟩, h⟩ := hm
        simp [hheld]
        have hfile := h.file
        rw [hheld] at hfile
        refine finish_prints rfl ?_ rfl ⟨h.text, h.reader, by simp [h.ended], h.fresh, hfile⟩
          fun f written ended hpost => hpost
        rw [hlist]
        refine ⟨e, base, hgrow.getEvent hfound, hbase, fun i hi hi' j hj hj' => ?_⟩
        exact hwhole i hi (by rw [hrows]; omega) j hj (by omega)
    · rw [text_show (hgrow.getEvent hfound) hbase, hrows]
      simp [matrixText]

/-! ## ems_list_events -/

/-- The ids go through the buffer. -/
theorem listNodes_prints {faults : Prop} {c : Op} {rest : List Char} {list : EventList}
    {reader : Option (Lock × Mode)} (n : Nat) :
    ∀ {i out f written ended}, i + n = list.length →
      Ahead c out ((list.drop i).flatMap (fun event => idLine event.id) ++ rest)
        ⟨locks (some .read) none none f, list, reader, written, ended⟩ →
      (listNodes i n out).wp (prints faults c)
        (Passed faults c (fun m => m.list = list ∧ m.reader = reader ∧
          ∃ f, m.held = locks (some .read) none none f) rest)
        ⟨locks (some .read) none none f, list, reader, written, ended⟩ := by
  induction n with
  | zero =>
    intro i out f written ended hi h
    rw [List.drop_of_length_le (by omega)] at h
    exact ⟨⟨rfl, rfl, f, rfl⟩, h⟩
  | succ n ih =>
    intro i out f written ended hi h
    simp [listNodes]
    intro event he
    refine ⟨fun _ => ?_, fun hf => ?_⟩
    · have hdrop : list.drop i = event :: list.drop (i + 1) := by
        obtain ⟨hlt, rfl⟩ := List.getElem?_eq_some_iff.mp he
        exact List.drop_eq_getElem_cons hlt
      have hmore : Ahead c { out with buffer := out.buffer ++ idLine event.id }
          ((list.drop (i + 1)).flatMap (fun event => idLine event.id) ++ rest)
          ⟨locks (some .read) none none f, list, reader, written, ended⟩ := by
        refine ⟨?_, h.reader, h.ended, h.fresh, h.file⟩
        rw [← h.text, hdrop, List.flatMap_cons]
        simp only [List.append_assoc]
      refine wp_bind _ _ (flush_prints rfl hmore (fun hf f written hfile => ?_)
        fun out' f written h' => ih (by omega) h')
      simp [hfile]
      exact printed_failure (fun hno => absurd hf hno) fun hno => absurd hf hno
    · exact printed_failure (fun hno => hf.resolve_left hno) fun _ => h.ended

/-- `ems_list_events` prints the ids, in one piece. -/
theorem list_prints {faults : Prop} {list : EventList} {reader : Option (Lock × Mode)}
    {file : Option Mode} (hfile : ¬ faults → file = none) :
    emsListEvents.wp (prints faults .listEvents)
      (Printed faults .listEvents) ⟨locks none none none file, list, reader, [], false⟩ := by
  unfold emsListEvents
  simp
  intro list' _
  have hunlock : ∀ {post : Unit → Watch → Prop} f written ended,
      post () ⟨locks none none none f, list', some (.list, .read), written, ended⟩ →
      (release .list : Code Unit).wp (prints faults .listEvents) post
        ⟨locks (some .read) none none f, list', some (.list, .read), written, ended⟩ :=
    fun f written ended hpost => by simpa using hpost
  refine ⟨printed_failure hfile fun _ => rfl, fun hnil => ?_, fun hne => ?_⟩
  · refine finish_prints rfl trivial rfl ⟨?_, rfl, rfl, fun _ => rfl, nofun⟩ hunlock
    simp [Op.text, listText, hnil]
  · refine wp_bind _ _ (wp_mono (fun r m hm => ?_) (listNodes_prints _ (Nat.zero_add _)
      (show Ahead _ _ (_ ++ []) _ from ⟨?_, rfl, rfl, fun _ => rfl, nofun⟩)))
    · cases r with
      | none => exact hm
      | some out =>
        obtain ⟨held, list, reader, written, ended⟩ := m
        obtain ⟨⟨rfl, rfl, f, rfl⟩, h⟩ := hm
        exact finish_prints rfl trivial rfl h hunlock
    · simp [Op.text, listText, hne]

/-- **One call** prints the text of the list it has read. -/
theorem code_prints {faults : Prop} (c : Op) {list : EventList} {reader : Option (Lock × Mode)}
    {file : Option Mode} (hfile : ¬ faults → file = none) :
    c.code.wp (prints faults c) (Printed faults c)
      ⟨locks none none none file, list, reader, [], false⟩ := by
  cases c with
  | create id rows cols => exact create_prints hfile
  | reserve q => exact reserve_prints hfile
  | showEvent id => exact show_prints hfile
  | listEvents => exact list_prints hfile

end Programs

end Ems.Jobs
