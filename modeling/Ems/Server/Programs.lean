import Ems.Conc.Program
import Ems.Server.Store
import Ems.Wire.Bytes

/-!
# The operations of the server as programs

The five operations of `server/operations.c` from top to bottom, with every lock call,
every unlock and every early return where the source has it. Here the lock calls are
tested: each of them is asked first whether it succeeds.

All of them return with nothing locked, with one exception: when `pthread_mutex_lock`
fails in `ems_sigusr1_action`, the lock of the list stays locked (`code_ordered`). And one
of them need not return: the loops of `ems_sigusr1_action` count to the dimensions of an
event inclusive, and never get beyond the largest `size_t`.

Mirroring notes:
- `load` is a look at the fields of `struct Event` that nobody writes once the event is in
  the list: the id and the dimensions.
- `safe_write` is one action, whether it returns less than 0. `writeSeats` is the one whose
  bytes come straight from the event.
- The loops from `head` to `tail` make one round more than there are nodes behind `head`
  (`behind`); the list has a head whenever `event_num` is not 0.
- A loop that does not end is `undefined` where its counter has come by all of its values.
- The delay and the messages on stderr are left out; nobody tests whether `printf` fails.
- What `ems_sigusr1_action` prints here is what it prints in `Nodes.lean` (`Action.lean`).
-/

namespace Ems.Server.Programs

open Conc Conc.Program Wire

/-- The lock of the list and that of each event. -/
inductive Lock where
  | rwl
  | mutex (e : Nat)
deriving DecidableEq, Repr

/-- What an operation does besides taking and giving back locks. -/
inductive Action where
  /-- `event_list != NULL` -/
  | initialized
  /-- `pthread_rwlock_rdlock(&event_list->rwl)` succeeds -/
  | rdlock
  /-- `pthread_rwlock_wrlock(&event_list->rwl)` succeeds -/
  | wrlock
  /-- `pthread_mutex_lock(&event->mutex)` succeeds -/
  | mutexLock (e : Nat)
  /-- `get_event` -/
  | lookup (eventId : UInt32)
  | load (e : Nat)
  | malloc
  | mutexInit
  | calloc (n : UInt64)
  /-- `append_to_list` with its `malloc` -/
  | append (event : Event)
  | readSeat (e i : Nat)
  | writeSeat (e i : Nat) (value : UInt32)
  /-- `++event->reservations` -/
  | bump (e : Nat)
  | eventNum
  /-- `event_list->head != NULL` -/
  | head
  /-- how many nodes there are behind `head`, up to `tail` -/
  | behind
  /-- `(current->event)->id` at the `i`-th node -/
  | nodeId (i : Nat)
  | safeWrite (data : List UInt8)
  /-- `safe_write(out_fd, event->data, n)` -/
  | writeSeats (e : Nat) (n : UInt64)
  | printf (text : List Char)

/-- What an action is answered. -/
abbrev Answer : Action → Type
  | .initialized => Bool
  | .rdlock => Bool
  | .wrlock => Bool
  | .mutexLock _ => Bool
  | .lookup _ => Option Nat
  | .load _ => Event
  | .malloc => Bool
  | .mutexInit => Bool
  | .calloc _ => Option (List UInt32)
  | .append _ => Bool
  | .readSeat _ _ => UInt32
  | .writeSeat _ _ _ => Unit
  | .bump _ => UInt32
  | .eventNum => UInt64
  | .head => Bool
  | .behind => Nat
  | .nodeId _ => UInt32
  | .safeWrite _ => Bool
  | .writeSeats _ _ => Bool
  | .printf _ => Unit

/-- Code of an operation. -/
abbrev Code := Program Lock Action Answer

/-- An action. -/
abbrev ask (e : Action) : Code (Answer e) := perform e

/-! ## ems_create -/

def emsCreate (eventId : UInt32) (numRows numCols : UInt64) : Code Nat := do
  let ready : Bool ← ask .initialized
  if !ready then return 1
  let locked : Bool ← ask .wrlock
  if !locked then return 1
  acquire .rwl .write
  let found : Option Nat ← ask (.lookup eventId)
  if found.isSome then
    release .rwl
    return 1
  let event : Bool ← ask .malloc
  if !event then
    release .rwl
    return 1
  let mutex : Bool ← ask .mutexInit
  if !mutex then
    release .rwl
    return 1
  let data : Option (List UInt32) ← ask (.calloc (numRows * numCols))
  match data with
  | none => do
    release .rwl
    return 1
  | some data => do
    let node : Bool ← ask (.append
      { id := eventId, reservations := 0, cols := numCols, rows := numRows, data := data })
    if !node then
      release .rwl
      return 1
    release .rwl
    return 0

/-! ## ems_reserve -/

/-- The test of the bounds, from the `i`-th seat on, `n` of them: `false` when it has
failed and given back the mutex. -/
def checkBounds (e : Nat) (q : Request) : Nat → Nat → Code Bool
  | _, 0 => pure true
  | i, n + 1 => do
    let event : Event ← ask (.load e)
    if outOfBounds event (q.xs i) (q.ys i) then
      release (.mutex e)
      return false
    checkBounds e q (i + 1) n

/-- The inner loop of the test of cell `i`, from the `j`-th seat on, `n` of them. -/
def checkCell (e : Nat) (q : Request) (i : Nat) : Nat → Nat → Code Bool
  | _, 0 => pure true
  | j, n + 1 => do
    let event : Event ← ask (.load e)
    if q.index event j != i then checkCell e q i (j + 1) n
    else
      let seat : UInt32 ← ask (.readSeat e i)
      if seat != 0 then
        release (.mutex e)
        return false
      return true

/-- The test of the cells, from the `i`-th on, `n` of them. -/
def checkCells (e : Nat) (q : Request) : Nat → Nat → Code Bool
  | _, 0 => pure true
  | i, n + 1 => do
    let free ← checkCell e q i 0 q.numSeats.toNat
    if !free then return false
    checkCells e q (i + 1) n

/-- The stores, from the `i`-th seat on, `n` of them. -/
def storeSeats (e : Nat) (q : Request) (reservationId : UInt32) : Nat → Nat → Code Unit
  | _, 0 => pure ()
  | i, n + 1 => do
    let event : Event ← ask (.load e)
    let _ : Unit ← ask (.writeSeat e (q.index event i) reservationId)
    storeSeats e q reservationId (i + 1) n

/-- `ems_reserve` from the mutex on. -/
def reserveEvent (e : Nat) (q : Request) : Code Nat := do
  let locked : Bool ← ask (.mutexLock e)
  if !locked then return 1
  acquire (.mutex e) .write
  let inside ← checkBounds e q 0 q.numSeats.toNat
  if !inside then return 1
  let event : Event ← ask (.load e)
  let free ← checkCells e q 0 (event.rows * event.cols).toNat
  if !free then return 1
  let reservationId : UInt32 ← ask (.bump e)
  storeSeats e q reservationId 0 q.numSeats.toNat
  release (.mutex e)
  return 0

def emsReserve (q : Request) : Code Nat := do
  let ready : Bool ← ask .initialized
  if !ready then return 1
  let locked : Bool ← ask .rdlock
  if !locked then return 1
  acquire .rwl .read
  let found : Option Nat ← ask (.lookup q.eventId)
  release .rwl
  match found with
  | none => return 1
  | some e => reserveEvent e q

/-! ## ems_show -/

/-- `event_size`. -/
def eventSize (rows cols : UInt64) : List UInt8 := toWords 8 [rows.toNat, cols.toNat]

def emsShow (eventId : UInt32) : Code Nat := do
  let ready : Bool ← ask .initialized
  if !ready then return 1
  let locked : Bool ← ask .rdlock
  if !locked then return 1
  acquire .rwl .read
  let found : Option Nat ← ask (.lookup eventId)
  release .rwl
  match found with
  | none => do
    let _ : Bool ← ask (.safeWrite (eventSize 0 0))
    return 1
  | some e => do
    let event : Event ← ask (.load e)
    let sized : Bool ← ask (.safeWrite (eventSize event.rows event.cols))
    if !sized then return 1
    let written : Bool ← ask (.writeSeats e (event.rows * event.cols * 4))
    if !written then return 1
    return 0

/-! ## ems_list_events -/

/-- The loop from the `i`-th node on, with `n` nodes behind it: `false` when it has failed
and given back the lock. -/
def listNodes : Nat → Nat → Code Bool
  | i, n => do
    let id : UInt32 ← ask (.nodeId i)
    let written : Bool ← ask (.safeWrite (toLe 4 id.toNat))
    if !written then
      release .rwl
      return false
    match n with
    | 0 => return true
    | n + 1 => listNodes (i + 1) n

def emsListEvents : Code Nat := do
  let ready : Bool ← ask .initialized
  if !ready then return 1
  let locked : Bool ← ask .rdlock
  if !locked then return 1
  acquire .rwl .read
  let eventNum : UInt64 ← ask .eventNum
  let counted : Bool ← ask (.safeWrite (toLe 8 eventNum.toNat))
  if !counted then
    release .rwl
    return 1
  if eventNum = 0 then
    release .rwl
    return 0
  let n : Nat ← ask .behind
  let listed ← listNodes 0 n
  if !listed then return 1
  release .rwl
  return 0

/-! ## ems_sigusr1_action -/

/-- `for (size_t i = ...; i <= n; i++)`. The fuel is one more than there are values from 1
on; a counter that uses it up has come round to 0, and the loop does not end. -/
def forLoop (n : UInt64) (body : UInt64 → Code Unit) : Nat → UInt64 → Code Unit
  | 0, _ => .undefined
  | fuel + 1, i =>
    if i ≤ n then do
      body i
      forLoop n body fuel (i + 1)
    else pure ()

/-- The seats of row `i` of event `e`. -/
def printRow (e : Nat) (event : Event) (i : UInt64) : Code Unit :=
  forLoop event.cols (fun j => do
    let seat : UInt32 ← ask (.readSeat e (seatIndex event i j).toNat)
    let _ : Unit ← ask (.printf (Nat.toDigits 10 seat.toNat))
    if j < event.cols then ask (.printf [' ']) else pure ()) (2 ^ 64) 1

/-- The rows of event `e`. -/
def printRows (e : Nat) (event : Event) : Code Unit :=
  forLoop event.rows (fun i => do
    printRow e event i
    ask (.printf ['\n'])) (2 ^ 64) 1

/-- The loop from the `i`-th node on, with `n` nodes behind it: `false` when it has
failed. -/
def printNodes : Nat → Nat → Code Bool
  | i, n => do
    let locked : Bool ← ask (.mutexLock i)
    if !locked then return false
    acquire (.mutex i) .write
    let event : Event ← ask (.load i)
    let _ : Unit ← ask (.printf ("Event: ".toList ++ Nat.toDigits 10 event.id.toNat ++ ['\n']))
    printRows i event
    release (.mutex i)
    match n with
    | 0 => return true
    | n + 1 => printNodes (i + 1) n

def emsSigusr1Action : Code Nat := do
  let ready : Bool ← ask .initialized
  if !ready then return 1
  let locked : Bool ← ask .rdlock
  if !locked then return 1
  acquire .rwl .read
  let head : Bool ← ask .head
  if !head then
    let _ : Unit ← ask (.printf "No events\n".toList)
    release .rwl
    return 0
  let n : Nat ← ask .behind
  let printed ← printNodes 0 n
  if !printed then return 1
  release .rwl
  return 0

/-- A call. -/
inductive Op where
  | create (eventId : UInt32) (numRows numCols : UInt64)
  | reserve (q : Request)
  | showEvent (eventId : UInt32)
  | listEvents
  | sigusr1Action

def Op.code : Op → Code Nat
  | .create eventId numRows numCols => emsCreate eventId numRows numCols
  | .reserve q => emsReserve q
  | .showEvent eventId => emsShow eventId
  | .listEvents => emsListEvents
  | .sigusr1Action => emsSigusr1Action

/-! ## Who gives back what -/

/-- No `pthread_mutex_lock` fails in `ems_sigusr1_action`. -/
def Op.Fair : Op → Past Action Answer → Prop
  | .sigusr1Action, past => ∀ e, ⟨.mutexLock e, false⟩ ∉ past
  | _, _ => True

/-- The dimensions that a loop `i <= n` counts beyond, and for ever. -/
def Endless (event : Event) : Prop :=
  event.rows.toNat + 1 = 2 ^ 64 ∨ event.rows ≠ 0 ∧ event.cols.toNat + 1 = 2 ^ 64

/-- Where an operation does not end: in `ems_sigusr1_action`, at such an event. -/
def Op.Undefined : Op → Past Action Answer → Prop
  | .sigusr1Action, past => ∃ e event, ⟨.load e, event⟩ ∈ past ∧ Endless event
  | _, _ => False

/-- The lock of the list comes first. -/
def rank : Lock → Nat
  | .rwl => 0
  | .mutex _ => 1

/-- How a thread holds the lock of the list, and whose mutex. -/
def locks (list : Option Mode) (mutex : Option Nat) : Held Lock
  | .rwl => list
  | .mutex e => if mutex = some e then some .write else none

section Locks

variable {list mode : Option Mode} {mutex : Option Nat} {e : Nat}

/-- Nothing is held in the beginning. -/
theorem locks_none : (fun _ => none) = locks none none := by
  funext l
  cases l <;> rfl

/-- The lock of the list. -/
@[simp] theorem locks_rwl : locks list mutex .rwl = list := rfl

/-- The mutex that is held is held for writing. -/
@[simp] theorem locks_mutex : locks list (some e) (.mutex e) = some .write := if_pos rfl

/-- Taking or giving back the lock of the list leaves the mutex. -/
@[simp] theorem update_rwl :
    Function.update (locks list mutex) .rwl mode = locks mode mutex := by
  funext l
  cases l <;> rfl

/-- Taking a mutex leaves the lock of the list. -/
@[simp] theorem update_mutex :
    Function.update (locks list none) (.mutex e) (some .write) = locks list (some e) := by
  funext l
  cases l with
  | rwl => rfl
  | mutex k =>
    by_cases hk : k = e
    · rw [hk, Function.update_self, locks_mutex]
    · rw [Function.update_of_ne (by simp [hk])]
      simp [locks, Ne.symm hk]

/-- Giving back a mutex leaves the lock of the list. -/
@[simp] theorem update_mutex_none :
    Function.update (locks list (some e)) (.mutex e) none = locks list none := by
  funext l
  cases l with
  | rwl => rfl
  | mutex k =>
    by_cases hk : k = e
    · rw [hk, Function.update_self]
      rfl
    · rw [Function.update_of_ne (by simp [hk])]
      simp [locks, Ne.symm hk]

/-- Without a mutex there is only the lock of the list. -/
@[simp] theorem held_rwl {P : Lock → Prop} :
    (∀ k, locks list none k ≠ none → P k) ↔ (list ≠ none → P .rwl) := by
  constructor
  · exact fun h => h .rwl
  · intro h k hk
    cases k with
    | rwl => exact h hk
    | mutex k => exact absurd rfl hk

/-- Nothing is locked when the lock of the list is free. -/
@[simp] theorem free_locks : Free (locks list none) ↔ list = none := by
  constructor
  · exact fun h => h .rwl
  · rintro rfl l
    cases l <;> rfl

end Locks

section Order

variable {U : Past Action Answer → Prop} {held : Held Lock} {past : Past Action Answer}
  {list : Option Mode} {e : Nat}

/-- Every way out of `ems_create` gives back the lock of the list. -/
theorem create_ordered (id : UInt32) (rows cols : UInt64) :
    Ordered rank (fun _ => False) (Op.Fair (.create id rows cols)) (emsCreate id rows cols)
      (fun _ => none) [] := by
  unfold Ordered emsCreate Op.Fair
  rw [locks_none]
  simp
  intro data
  cases data <;> simp

/-- The loops of `ems_reserve` end with the mutex held, or have given it back. -/
def Checked (e : Nat) (inside : Bool) (m : Held Lock × Past Action Answer) : Prop :=
  m.1 = locks none (if inside then some e else none)

/-- A failed test of the bounds has given back the mutex. -/
theorem checkBounds_ordered {q : Request} (n : Nat) : ∀ {i past},
    (checkBounds e q i n).wp (ordered rank U) (Checked e) (locks none (some e), past) := by
  induction n with
  | zero => exact rfl
  | succ n ih =>
    intro i past
    simp [checkBounds]
    exact fun event => ⟨fun _ => rfl, fun _ => ih⟩

/-- A taken seat has given back the mutex, at one cell. -/
theorem checkCell_ordered {q : Request} {i : Nat} (n : Nat) : ∀ {j past},
    (checkCell e q i j n).wp (ordered rank U) (Checked e) (locks none (some e), past) := by
  induction n with
  | zero => exact rfl
  | succ n ih =>
    intro j past
    simp [checkCell]
    exact fun event => ⟨fun _ seat => ⟨fun _ => rfl, fun _ => rfl⟩, fun _ => ih⟩

/-- A failed test of the cells has given back the mutex. -/
theorem checkCells_ordered {q : Request} (n : Nat) : ∀ {i past},
    (checkCells e q i n).wp (ordered rank U) (Checked e) (locks none (some e), past) := by
  induction n with
  | zero => exact rfl
  | succ n ih =>
    intro i past
    refine wp_bind _ _ (wp_mono (fun free m h => ?_) (checkCell_ordered _))
    cases free with
    | false => exact h
    | true =>
      obtain ⟨held, past⟩ := m
      dsimp only [Checked] at h
      subst h
      exact ih

/-- The stores neither lock nor unlock. -/
theorem storeSeats_ordered {q : Request} {r : UInt32} {post : Unit → _ → Prop}
    (hpost : ∀ past, post () (held, past)) (n : Nat) : ∀ {i past},
    (storeSeats e q r i n).wp (ordered rank U) post (held, past) := by
  induction n with
  | zero => exact hpost _
  | succ n ih =>
    intro i past
    simp [storeSeats]
    exact fun event _ => ih

/-- `ems_reserve` takes the mutex when it has given back the list, and every way out of it gives
back the mutex. -/
theorem reserve_ordered (q : Request) :
    Ordered rank (fun _ => False) (Op.Fair (.reserve q)) (emsReserve q) (fun _ => none) [] := by
  unfold Ordered emsReserve Op.Fair
  rw [locks_none]
  simp
  intro found
  cases found with
  | none => simp
  | some e =>
    simp [reserveEvent, rank]
    refine wp_bind _ _ (wp_mono (fun inside m h => ?_) (checkBounds_ordered _))
    obtain ⟨held, past⟩ := m
    dsimp only [Checked] at h
    subst h
    cases inside with
    | false => simp
    | true =>
      simp
      refine fun event => wp_bind _ _ (wp_mono (fun free m h => ?_) (checkCells_ordered _))
      obtain ⟨held, past⟩ := m
      dsimp only [Checked] at h
      subst h
      cases free with
      | false => simp
      | true =>
        simp
        exact fun r => wp_bind _ _ (storeSeats_ordered (fun past => by simp) _)

/-- `ems_show` has given back the list before it writes. -/
theorem show_ordered (id : UInt32) :
    Ordered rank (fun _ => False) (Op.Fair (.showEvent id)) (emsShow id) (fun _ => none) [] := by
  unfold Ordered emsShow Op.Fair
  rw [locks_none]
  simp
  intro found
  cases found <;> simp

/-- A failed write has given back the list, the end of the loop has not. -/
theorem listNodes_ordered (n : Nat) : ∀ {i past},
    (listNodes i n).wp (ordered rank U)
      (fun listed m => m.1 = locks (if listed then some .read else none) none)
      (locks (some .read) none, past) := by
  induction n with
  | zero =>
    intro i past
    unfold listNodes
    simp
  | succ n ih =>
    intro i past
    unfold listNodes
    simp
    exact fun id => ih

/-- Every way out of `ems_list_events` gives back the lock of the list. -/
theorem list_ordered :
    Ordered rank (fun _ => False) (Op.Fair .listEvents) emsListEvents (fun _ => none) [] := by
  unfold Ordered emsListEvents Op.Fair
  rw [locks_none]
  simp
  refine fun eventNum _ n => wp_bind _ _ (wp_mono (fun listed m h => ?_) (listNodes_ordered _))
  obtain ⟨held, past⟩ := m
  dsimp only at h
  subst h
  cases listed <;> simp

/-! ### The loops of `ems_sigusr1_action` -/

/-- No mutex call has failed. -/
def Locked (past : Past Action Answer) : Prop := ∀ e, ⟨.mutexLock e, false⟩ ∉ past

/-- An answer that is no failed mutex. -/
theorem Locked.snoc {x : (e : Action) × Answer e} (h : Locked past)
    (hx : ∀ e, x ≠ ⟨.mutexLock e, false⟩) : Locked (past ++ [x]) := by
  intro e hmem
  rcases List.mem_append.mp hmem with hold | hnew
  · exact h e hold
  · exact hx e (List.mem_singleton.mp hnew).symm

/-- No event with endless loops has been met. -/
def Ending (past : Past Action Answer) : Prop := ¬ Op.sigusr1Action.Undefined past

/-- An answer that is no event with loops that never end. -/
theorem Ending.snoc {x : (e : Action) × Answer e} (h : Ending past)
    (hx : ∀ e event, x = ⟨.load e, event⟩ → ¬ Endless event) : Ending (past ++ [x]) := by
  rintro ⟨e, event, hmem, hend⟩
  rcases List.mem_append.mp hmem with hold | hnew
  · exact h ⟨e, event, hold, hend⟩
  · exact hx e event (List.mem_singleton.mp hnew).symm hend

/-- What is kept by a piece of code that only reads and prints: the mutexes that were
locked, and the events that have been met. -/
def Prints (past past' : Past Action Answer) : Prop :=
  (Locked past → Locked past') ∧ (Ending past → Ending past') ∧ past ⊆ past'

/-- Nothing has been printed yet. -/
theorem Prints.refl (past : Past Action Answer) : Prints past past :=
  ⟨id, id, List.Subset.refl past⟩

/-- A seat or a character more. -/
theorem Prints.snoc {past past' : Past Action Answer} {x : (e : Action) × Answer e}
    (h : Prints past past') (hlock : ∀ e, x ≠ ⟨.mutexLock e, false⟩)
    (hload : ∀ e event, x ≠ ⟨.load e, event⟩) : Prints past (past' ++ [x]) :=
  ⟨fun hl => (h.1 hl).snoc hlock, fun he => (h.2.1 he).snoc fun e event hx => absurd hx (hload e event),
    List.Subset.trans h.2.2 (List.subset_append_left past' [x])⟩

/-- A loop that is left has counted to its bound; at the largest bound it is not. -/
theorem forLoop_wp {μ : Type} {S : Spec Lock Action Answer μ} {n : UInt64}
    {body : UInt64 → Code Unit} {I : μ → Prop} {post : Unit → μ → Prop}
    (hbody : ∀ i m, I m → (body i).wp S (fun _ => I) m)
    (hpost : n.toNat + 1 < 2 ^ 64 → ∀ m, I m → post () m)
    (hmax : n.toNat + 1 = 2 ^ 64 → ∀ m, I m → S.undefined m) {m : μ} (hm : I m) :
    (forLoop n body (2 ^ 64) 1).wp S post m := by
  have hn := n.toNat_lt
  by_cases hfit : n.toNat + 1 < 2 ^ 64
  · -- from the counter `i` on the fuel is enough
    have hends : ∀ (fuel : Nat) (i : UInt64) (m : μ), n.toNat + 1 < fuel + i.toNat →
        i.toNat ≤ n.toNat + 1 → I m → (forLoop n body fuel i).wp S post m := by
      intro fuel
      induction fuel with
      | zero => intro i m hfuel hi _; omega
      | succ fuel ih =>
        intro i m hfuel hi hm
        rw [forLoop, wp_ite]
        refine ⟨fun hle => wp_bind _ _ (wp_mono (fun _ m' hm' => ?_) (hbody i m hm)),
          fun _ => hpost hfit m hm⟩
        rw [UInt64.le_iff_toNat_le] at hle
        have hnext : (i + 1).toNat = i.toNat + 1 := by
          rw [UInt64.toNat_add]
          exact Nat.mod_eq_of_lt (show i.toNat + 1 < 2 ^ 64 by omega)
        exact ih (i + 1) m' (by omega) (by omega) hm'
    exact hends (2 ^ 64) 1 m (by show _ < 2 ^ 64 + 1; omega) (by show 1 ≤ _; omega) hm
  · -- every counter is within the largest bound
    have hends : ∀ (fuel : Nat) (i : UInt64) (m : μ), I m →
        (forLoop n body fuel i).wp S post m := by
      intro fuel
      induction fuel with
      | zero => exact fun i m hm => hmax (by omega) m hm
      | succ fuel ih =>
        intro i m hm
        have hle : i ≤ n := by
          rw [UInt64.le_iff_toNat_le]
          have := i.toNat_lt
          omega
        rw [forLoop, if_pos hle]
        exact wp_bind _ _ (wp_mono (fun _ m' hm' => ih (i + 1) m' hm') (hbody i m hm))
    exact hends (2 ^ 64) 1 m hm

section Rows

variable {event : Event} {start : Past Action Answer} {post : Unit → _ → Prop}

/-- A row is printed, unless its columns are counted for ever. -/
theorem printRow_ordered {i : UInt64}
    (hpost : event.cols.toNat + 1 < 2 ^ 64 → ∀ past, Prints start past → post () (held, past))
    (hmax : event.cols.toNat + 1 = 2 ^ 64 → ∀ past, Prints start past → U past)
    (hpast : Prints start past) :
    (printRow e event i).wp (ordered rank U) post (held, past) := by
  refine forLoop_wp (I := fun m => m.1 = held ∧ Prints start m.2) ?_ ?_ ?_ ⟨rfl, hpast⟩
  · rintro j ⟨held', past'⟩ ⟨rfl, h⟩
    simp only [perform_bind, wp_act, ordered_act, wp_ite, wp_pure]
    have hseat : ∀ k seat text,
        Prints start (past' ++ [⟨.readSeat e k, seat⟩] ++ [⟨.printf text, ()⟩]) :=
      fun k seat text => (h.snoc (by simp) (by simp)).snoc (by simp) (by simp)
    refine fun seat _ => ⟨fun _ => ?_, fun _ => ⟨trivial, hseat _ seat _⟩⟩
    exact fun _ => ⟨rfl, (hseat _ seat _).snoc (by simp) (by simp)⟩
  · rintro hcols ⟨held', past'⟩ ⟨rfl, h⟩
    exact hpost hcols past' h
  · rintro hcols ⟨held', past'⟩ ⟨rfl, h⟩
    exact hmax hcols past' h

/-- The rows are printed, unless the event has endless loops. -/
theorem printRows_ordered
    (hpost : ¬ Endless event → ∀ past, Prints start past → post () (held, past))
    (hend : Endless event → ∀ past, Prints start past → U past) :
    (printRows e event).wp (ordered rank U) post (held, start) := by
  have hnewline : ∀ {past : Past Action Answer} {u : Unit}, Prints start past →
      Prints start (past ++ [⟨.printf ['\n'], u⟩]) := fun h => h.snoc (by simp) (by simp)
  by_cases hcols : event.cols.toNat + 1 < 2 ^ 64
  · refine forLoop_wp (I := fun m => m.1 = held ∧ Prints start m.2) ?_ ?_ ?_ ⟨rfl, .refl start⟩
    · rintro i ⟨held', past'⟩ ⟨rfl, h⟩
      refine wp_bind _ _ (printRow_ordered (fun _ past h => ?_) (fun hmax => ?_) h)
      · exact fun _ => ⟨rfl, hnewline h⟩
      · exact absurd hmax (Nat.ne_of_lt hcols)
    · rintro hrows ⟨held', past'⟩ ⟨rfl, h⟩
      refine hpost ?_ past' h
      rintro (hmax | ⟨-, hmax⟩)
      · exact absurd hmax (Nat.ne_of_lt hrows)
      · exact absurd hmax (Nat.ne_of_lt hcols)
    · rintro hrows ⟨held', past'⟩ ⟨rfl, h⟩
      exact hend (.inl hrows) past' h
  · have hlt := event.cols.toNat_lt
    have hmax : event.cols.toNat + 1 = 2 ^ 64 := by omega
    show (forLoop event.rows _ ((2 ^ 64 - 1) + 1) 1).wp (ordered rank U) post (held, start)
    rw [forLoop, wp_ite]
    constructor
    · -- the first row is not left
      intro hle
      have hrows : event.rows ≠ 0 := fun hzero => by
        rw [hzero] at hle
        exact absurd hle (by decide)
      refine wp_bind _ _ (wp_bind _ _ (printRow_ordered (fun hfit => ?_) (fun _ => ?_) (.refl start)))
      · exact absurd hfit hcols
      · exact hend (.inr ⟨hrows, hmax⟩)
    · intro hgt
      refine hpost ?_ start (.refl start)
      have hzero : event.rows.toNat < 1 := by
        rw [UInt64.le_iff_toNat_le] at hgt
        exact Nat.lt_of_not_le hgt
      rintro (hrows | ⟨hrows, -⟩)
      · omega
      · exact hrows (UInt64.toNat_inj.mp (by rw [Nat.lt_one_iff.mp hzero]; rfl))

end Rows

/-- What has been asked when the rows of an event are printed. -/
def heading (past : Past Action Answer) (i : Nat) (event : Event) (text : List Char) (u : Unit) :
    Past Action Answer :=
  past ++ [⟨.mutexLock i, true⟩, ⟨.load i, event⟩, ⟨.printf text, u⟩]

/-- The event whose heading is printed has been looked at. -/
theorem mem_heading {i : Nat} {event : Event} {text : List Char} {u : Unit} :
    ⟨.load i, event⟩ ∈ heading past i event text u :=
  List.mem_append_right _ (List.mem_cons_of_mem _ (List.mem_cons_self ..))

/-- The heading of an event comes behind its mutex, which has been granted. -/
theorem Locked.heading {i : Nat} {event : Event} {text : List Char} {u : Unit}
    (h : Locked past) : Locked (heading past i event text u) := by
  have hlocked : Locked (past ++ [⟨.mutexLock i, true⟩]) := h.snoc (by simp)
  have hloaded : Locked (past ++ [⟨.mutexLock i, true⟩] ++ [⟨.load i, event⟩]) := hlocked.snoc nofun
  have hprinted := hloaded.snoc (x := ⟨.printf text, u⟩) nofun
  rwa [List.append_assoc, List.append_assoc] at hprinted

/-- The event has loops that end. -/
theorem Ending.heading {i : Nat} {event : Event} {text : List Char} {u : Unit}
    (h : Ending past) (hevent : ¬ Endless event) : Ending (heading past i event text u) := by
  have hlocked : Ending (past ++ [⟨.mutexLock i, true⟩]) := h.snoc (by simp)
  have hloaded : Ending (past ++ [⟨.mutexLock i, true⟩] ++ [⟨.load i, event⟩]) :=
    hlocked.snoc fun e event' hx => by cases hx; exact hevent
  have hprinted := hloaded.snoc (x := ⟨.printf text, u⟩) (by simp)
  rwa [List.append_assoc, List.append_assoc] at hprinted

/-- The loop over the nodes ends with the lock of the list held either way. -/
theorem printNodes_ordered (n : Nat) : ∀ {i past}, Locked past → Ending past →
    (printNodes i n).wp (ordered rank Op.sigusr1Action.Undefined)
      (fun printed m => m.1 = locks (some .read) none ∧ (printed = true ↔ Locked m.2) ∧
        Ending m.2)
      (locks (some .read) none, past) := by
  have hfail : ∀ i past, ¬ Locked (past ++ [⟨.mutexLock i, false⟩]) := fun i past h =>
    h i (by simp)
  have hcalm : ∀ i past, Ending past → Ending (past ++ [⟨.mutexLock i, false⟩]) :=
    fun i past h => h.snoc (by simp)
  -- one event, and then the rest of the loop
  have hnode : ∀ {i past} {event : Event} {u : Unit} {post : Unit → _ → Prop},
      Locked past → Ending past →
      (∀ past', Locked past' → Ending past' →
        post () (locks (some .read) (some i), past')) →
      (printRows i event).wp (ordered rank Op.sigusr1Action.Undefined) post
        (locks (some .read) (some i), heading past i event
          ("Event: ".toList ++ Nat.toDigits 10 event.id.toNat ++ ['\n']) u) := by
    intro i past event u post hlocked hending hpost
    refine printRows_ordered (fun hevent past' h => ?_) (fun hevent past' h => ?_)
    · exact hpost past' (h.1 hlocked.heading) (h.2.1 (hending.heading hevent))
    · exact ⟨i, event, h.2.2 mem_heading, hevent⟩
  induction n with
  | zero =>
    intro i past hlocked hending
    unfold printNodes
    simp [rank]
    refine ⟨⟨hfail i past, hcalm i past hending⟩, fun event u => ?_⟩
    refine wp_bind _ _ (hnode hlocked hending fun past' h h' => ?_)
    simpa using ⟨h, h'⟩
  | succ n ih =>
    intro i past hlocked hending
    unfold printNodes
    simp [rank]
    refine ⟨⟨hfail i past, hcalm i past hending⟩, fun event u => ?_⟩
    refine wp_bind _ _ (hnode hlocked hending fun past' h h' => ?_)
    simpa using ih h h'

/-- `ems_sigusr1_action` gives back both locks, unless a mutex fails or an event has loops that
never end. -/
theorem sigusr1_ordered :
    Ordered rank Op.sigusr1Action.Undefined (Op.Fair .sigusr1Action) emsSigusr1Action
      (fun _ => none) [] := by
  unfold Ordered emsSigusr1Action Op.Fair
  rw [locks_none]
  simp
  refine ⟨by simp [Op.Undefined], by simp [Op.Undefined], by simp [Op.Undefined], fun n => ?_⟩
  refine wp_bind _ _ (wp_mono (fun printed m h => ?_)
    (printNodes_ordered n (fun e => by simp) (by simp [Ending, Op.Undefined])))
  obtain ⟨held, past⟩ := m
  obtain ⟨hheld, hprinted, hending⟩ := h
  dsimp only at hheld hprinted hending
  subst hheld
  cases printed with
  | false =>
    have hfailed : ¬ Locked past := fun h => Bool.false_ne_true (hprinted.mpr h)
    simpa [Locked, Ending] using And.intro hfailed hending
  | true => simpa [Locked, Ending] using And.intro (hprinted.mp rfl) hending

end Order

/-- **The order** is kept by all five, and all locks are given back unless a mutex call fails
in `ems_sigusr1_action`, or its loops do not end. -/
theorem code_ordered (c : Op) :
    Ordered rank c.Undefined c.Fair c.code (fun _ => none) [] := by
  cases c with
  | create id rows cols => exact create_ordered id rows cols
  | reserve q => exact reserve_ordered q
  | showEvent id => exact show_ordered id
  | listEvents => exact list_ordered
  | sigusr1Action => exact sigusr1_ordered

end Ems.Server.Programs
