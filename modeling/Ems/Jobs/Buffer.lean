import Ems.Jobs.Cells
import Ems.Jobs.Sequential

/-!
# The output buffer

`ems_show` and `ems_list_events` collect what they print in `BUFSIZ` bytes and flush them
when at most `BUFFER_FLUSH_THOLD` are left. The test comes behind every seat but not
behind a newline, so that an event without columns is never flushed, and fills the buffer
when it has more rows than that (`contained_iff`).

Otherwise the buffer cannot be seen from outside: what reaches the file is the matrix,
row by row (`show_writes_matrix`), or the ids of the list (`list_writes_ids`), wherever
the flushes fall and whatever the pieces are that `write` takes.
-/

namespace Ems.Jobs

/-- The rows of the matrix, from the first cell on. -/
def Event.matrix (event : Event) : List (List UInt32) :=
  (List.range event.rows.toNat).map fun i =>
    (event.data.drop (i * event.cols.toNat)).take event.cols.toNat

namespace Programs

open Conc Conc.Program
open Client (decimal idLine)

/-! ## The end of the buffer -/

/-- A call of `ems_show` that finds `event` does not leave the buffer, whatever the seats
hold and whatever fails. -/
def Contained (event : Event) : Prop :=
  ∀ eventId answers, (∀ i e, answers i (.load e) = event) →
    (emsShow eventId).result answers 0 ≠ none

/-- The answers of a call that finds `event`, up to its first seat. -/
def finds (event : Event) : (e : Action) → Answer e
  | .initialized => true
  | .lookup _ => some 0
  | .load _ => event
  | .malloc => false
  | .append _ => false
  | .bump _ => 0
  | .undo _ => ()
  | .readSeat _ _ => 0
  | .writeSeat _ _ _ => ()
  | .nodes => 0
  | .nodeId _ => 0
  | .snprintf => false
  | .write _ => none

section

variable {event : Event}

theorem load_mem_trace (event : Event) (eventId : UInt32) :
    (⟨.load 0, event⟩ : (e : Action) × Answer e) ∈
      (emsShow eventId).trace (fun _ => finds event) 0 := by
  simp [emsShow, showEvent, trace, finds]

/-- A newline for every row, and no flush. -/
theorem not_contained (hcols : event.cols = 0) (hrows : bufsiz < event.rows.toNat) :
    ¬ Contained event := by
  intro h
  apply h event.id (fun _ => finds event) (fun _ _ => rfl)
  rw [(show_ordered event.id).result_eq_none]
  exact ⟨0, event, load_mem_trace event event.id, hcols, hrows⟩

end

/-- **The buffer is big enough** exactly when the event has a column, or no more rows than
the buffer has bytes. -/
theorem contained_iff (event : Event) :
    Contained event ↔ event.cols ≠ 0 ∨ event.rows.toNat ≤ bufsiz := by
  constructor
  · intro h
    by_contra hno
    rw [not_or, not_not, Nat.not_le] at hno
    exact not_contained hno.1 hno.2 h
  · intro hfits eventId answers hload hnone
    rw [(show_ordered eventId).result_eq_none, List.nil_append] at hnone
    obtain ⟨e, event', hmem, hcols, hrows⟩ := hnone
    obtain ⟨k, hk⟩ := eq_of_mem_trace hmem
    rw [hload] at hk
    dsimp only at hk
    subst hk
    rcases hfits with hne | hle
    · exact hne hcols
    · exact Nat.not_lt.mpr hle hrows

/-- `CREATE 7 8193 0` makes such an event. -/
theorem show_leaves_buffer :
    buildEvent ⟨true, true, true⟩ 7 8193 0 = some ⟨7, 0, 0, 8193, []⟩ ∧
      ¬ Contained ⟨7, 0, 0, 8193, []⟩ :=
  ⟨by decide, not_contained rfl (by decide)⟩

/-! ## What reaches the file -/

/-- Numbers row by row: blanks between them, and a newline behind every row. -/
def rendering (rows : List (List UInt32)) : List Char :=
  rows.flatMap fun row => List.intercalate [' '] (row.map decimal) ++ ['\n']

section

variable {event : Event}

/-- The seats from column `j` on. The blanks are between them, since the last one has none
behind it; by induction on their number. -/
theorem seats_eq_intercalate (seat : Nat → UInt32) (n : Nat) :
    ∀ {j}, j + n = event.cols.toNat + 1 →
      (List.range' j n).flatMap (fun j => seatText event j (seat j)) =
        List.intercalate [' '] ((List.range' j n).map fun j => decimal (seat j)) := by
  induction n with
  | zero => exact fun _ => rfl
  | succ n ih =>
    intro j hj
    rw [List.range'_succ, List.flatMap_cons, List.map_cons, ih (by omega)]
    cases n with
    | zero =>
      rw [seatText, if_neg (by omega), List.range'_zero, List.map_nil, List.intercalate_nil,
        List.intercalate_singleton, List.append_nil, List.append_nil]
    | succ n =>
      rw [seatText, if_pos (by omega), List.range'_succ, List.map_cons,
        List.intercalate_cons_cons]

/-- The `i`-th row, from 0, has its cells one behind the other. -/
theorem take_drop_eq_map (hcells : event.data.length = event.rows.toNat * event.cols.toNat)
    {i : Nat} (hi : i < event.rows.toNat) :
    (event.data.drop (i * event.cols.toNat)).take event.cols.toNat =
      (List.range' 1 event.cols.toNat).map fun j =>
        event.data.getD (i * event.cols.toNat + (j - 1)) 0 := by
  have hroom : i * event.cols.toNat + event.cols.toNat ≤ event.data.length := by
    rw [hcells, ← Nat.succ_mul]
    exact Nat.mul_le_mul_right _ hi
  apply List.ext_getElem
  · rw [List.length_take, List.length_drop, List.length_map, List.length_range']
    omega
  · intro j hj hj'
    rw [List.length_map, List.length_range'] at hj'
    rw [List.getElem_take, List.getElem_drop, List.getElem_map, List.getElem_range',
      List.getD_eq_getElem?_getD, List.getElem?_eq_getElem (by omega)]
    simp

/-- What the loops read at row `i` and column `j`. -/
theorem seatAt_eq (hcap : event.rows.toNat * event.cols.toNat < 2 ^ 64) {i j : Nat} (hi : 1 ≤ i)
    (hrows : i ≤ event.rows.toNat) (hj : 1 ≤ j) (hcols : j ≤ event.cols.toNat) :
    seatAt event i j = event.data.getD ((i - 1) * event.cols.toNat + (j - 1)) 0 := by
  have hindex := @Server.seatIndex_toNat event.toServer _ _ hcap (inside_ofNat hi hrows hj hcols)
  have hi64 := Nat.lt_of_le_of_lt hrows event.rows.toNat_lt
  have hj64 := Nat.lt_of_le_of_lt hcols event.cols.toNat_lt
  rw [UInt64.toNat_ofNat', UInt64.toNat_ofNat', Nat.mod_eq_of_lt hi64,
    Nat.mod_eq_of_lt hj64] at hindex
  exact congrArg (event.data.getD · 0) hindex

/-- The text of the loops is the rendering. -/
theorem matrixText_eq (hcap : event.rows.toNat * event.cols.toNat < 2 ^ 64)
    (hcells : event.data.length = event.rows.toNat * event.cols.toNat) :
    matrixText event = rendering event.matrix := by
  unfold matrixText rendering Event.matrix
  rw [List.range'_eq_map_range, List.flatMap_map, List.flatMap_map]
  apply List.flatMap_congr
  intro i hi
  have hi := List.mem_range.mp hi
  rw [rowText, seats_eq_intercalate _ _ (Nat.add_comm _ _), take_drop_eq_map hcells hi,
    List.map_map]
  congr 2
  apply List.map_congr_left
  intro j hj
  have hj := List.mem_range'_1.mp hj
  rw [seatAt_eq hcap (by omega) (by omega) (by omega) (by omega), Nat.add_sub_cancel_left]
  rfl

/-- Every seat has a cell. -/
theorem whole_of_length (hcap : event.rows.toNat * event.cols.toNat < 2 ^ 64)
    (hcells : event.data.length = event.rows.toNat * event.cols.toNat) : Whole event := by
  intro i hi hrows j hj hcols
  rw [hcells]
  exact seatIndex_lt_mul hcap (inside_ofNat hi hrows hj hcols)

end

/-- **`ems_show` writes the matrix** of an event with a column, and returns 0: its rows one
behind the other, whatever the pieces are. -/
theorem show_writes_matrix {list : EventList} {eventId : UInt32} {e : Nat} {event : Event}
    (hfound : getEvent list eventId = some e) (he : list[e]? = some event)
    (hcols : event.cols ≠ 0) (hcap : event.rows.toNat * event.cols.toNat < 2 ^ 64)
    (hcells : event.data.length = event.rows.toNat * event.cols.toNat)
    (file : List Char) (counts : Nat → Nat) :
    ((emsShow eventId).exec paced (⟨list, file⟩, counts)).map (fun r => (r.1, r.2.1)) =
      some (0, ⟨list, file ++ rendering event.matrix⟩) := by
  have hread : (Op.showEvent eventId).Readable list :=
    ⟨e, event, hfound, he, whole_of_length hcap hcells⟩
  have hcolumns : (Op.showEvent eventId).HasColumns list := by
    intro e' event' hfound' he'
    rw [hfound] at hfound'
    cases hfound'
    rw [he] at he'
    cases he'
    exact hcols
  rw [← matrixText_eq hcap hcells, ← text_show hfound he]
  exact exec_paced (.showEvent eventId) list file counts rfl hread hcolumns

/-- One row of two seats, one byte at a time. -/
theorem show_writes_matrix_row :
    ((emsShow 7).exec paced (⟨[⟨7, 3, 2, 1, [4, 10]⟩], []⟩, fun _ => 0)).map
      (fun r => (r.1, r.2.1.file)) = some (0, "4 10\n".toList) := by
  have h := @show_writes_matrix [⟨7, 3, 2, 1, [4, 10]⟩] 7 0 _ rfl rfl (by decide) (by decide) rfl []
    (fun _ => 0)
  have htext : [] ++ rendering (Event.matrix ⟨7, 3, 2, 1, [4, 10]⟩) = "4 10\n".toList := by decide
  rw [htext] at h
  have hfile := congrArg (Option.map fun r : Nat × Store => (r.1, r.2.file)) h
  rw [Option.map_map] at hfile
  exact hfile

/-- **`ems_list_events` writes the ids** of the list and returns 0, whatever the pieces
are. -/
theorem list_writes_ids (list : EventList) (file : List Char) (counts : Nat → Nat) :
    (emsListEvents.exec paced (⟨list, file⟩, counts)).map (fun r => (r.1, r.2.1)) =
      some (0, ⟨list, file ++ listText list⟩) :=
  exec_paced .listEvents list file counts rfl trivial trivial

end Programs

end Ems.Jobs
